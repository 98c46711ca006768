import Qumios.Kv.Map

/-! The search of `kv_item_calc_pos` for room, over all block tables.

From a block other than the first the loop passes every other block once and comes back. A
search that starts in the first block is over only when it finds room: the index is set to
0 and counted up before it is compared again, so it is never the one the loop ends at. -/
namespace Qumios.Kv
open List

open Nor Run

variable {j len n blk rounds : Nat} {s : State} {cfg : Config}

/-- The blocks the loop of `kv_item_calc_pos` looks at. -/
def inspected (blkNums : Nat) (s : State) (blkIndex len : Nat) : Nat → Nat → List Nat
  | 0, _ => []
  | rounds + 1, i =>
    if i = blkIndex then []
    else
      let i := if i = blkNums then 0 else i
      i :: if len < (s.info i).space then [] else inspected blkNums s blkIndex len rounds (i + 1)

/-- Up to where the search ends the loop goes straight ahead: to the block it started from, or past one
with room. -/
theorem inspected_ahead {stop : Nat} (hstop : stop ≤ n)
    (hend : stop = blk ∧ stop < n ∧ j ≤ stop ∨ len < (s.info (stop - 1)).space ∧ j < stop) :
    (inspected n s blk len rounds j).Sublist (List.range' j (stop - j)) := by
  induction rounds generalizing j with
  | zero => exact nil_sublist _
  | succ rounds ih =>
    rw [inspected]
    by_cases hblk : j = blk
    · rw [if_pos hblk]
      exact nil_sublist _
    · have hlt : j < stop := by omega
      rw [if_neg hblk, if_neg (by omega), show stop - j = stop - (j + 1) + 1 by omega, range'_succ]
      refine List.Sublist.cons_cons j ?_
      split_ifs with hroom
      · exact nil_sublist _
      · refine ih ?_
        have hnext : len < (s.info (stop - 1)).space → j ≠ stop - 1 := fun h heq => hroom (heq ▸ h)
        omega

/-- Behind the last block the loop goes on with the first. -/
theorem inspected_over (hblk : 0 < blk) (hlt : blk < j) (hj : j ≤ n) :
    (inspected n s blk len rounds j).Sublist (List.range' j (n - j) ++ List.range blk) := by
  induction rounds generalizing j with
  | zero => exact nil_sublist _
  | succ rounds ih =>
    rw [inspected, if_neg (by omega)]
    by_cases hwrap : j = n
    · have hrange : List.range blk = 0 :: List.range' 1 (blk - 1) := by
        rw [range_eq_range', show blk = blk - 1 + 1 by omega, range'_succ]
        rfl
      rw [if_pos hwrap, hwrap, Nat.sub_self, range'_zero, nil_append, hrange]
      refine List.Sublist.cons_cons 0 ?_
      split_ifs
      · exact nil_sublist _
      · exact inspected_ahead (by omega) (.inl ⟨rfl, by omega, hblk⟩)
    · rw [if_neg hwrap, show n - j = n - (j + 1) + 1 by omega, range'_succ]
      refine List.Sublist.cons_cons j ?_
      split_ifs
      · exact nil_sublist _
      · exact ih (by omega) (by omega)

/-- The search returns, with a collection asked for and no position where no block has room, and looks at
every other block at most once. -/
structure Searches (cfg : Config) (s : State) (len : Nat) : Prop where
  returns : ∃ r, kvItemCalcPos cfg s len = some r ∧
    ((∀ i < cfg.blkNums, (s.info i).space ≤ len) → r = (triggerGc s, 0))
  once : len < (s.info (s.writePos / blkSize)).space ∨ ∀ rounds,
    (inspected cfg.blkNums s (s.writePos / blkSize) len rounds (s.writePos / blkSize + 1)).Nodup ∧
    s.writePos / blkSize ∉ inspected cfg.blkNums s (s.writePos / blkSize) len rounds (s.writePos / blkSize + 1)

theorem searches_of_room (cfg : Config) (hcfg : cfg.blkNums > kvGcReserved + 1) (s : State) (len : Nat)
    (hpos : s.writePos / blkSize < cfg.blkNums)
    (hc : 0 < s.writePos / blkSize ∨ ∃ i < cfg.blkNums, len < (s.info i).space) : Searches cfg s len := by
  suffices h : _ ∧ _ from ⟨h.1, h.2⟩
  rw [kvItemCalcPos]
  generalize hblk : s.writePos / blkSize = blk at hpos hc ⊢
  by_cases hroom : len < (s.info blk).space
  · rw [if_pos hroom]
    exact ⟨⟨_, rfl, fun hfull => absurd (hfull blk hpos) (Nat.not_le_of_lt hroom)⟩, .inl hroom⟩
  rw [if_neg hroom, if_pos hcfg]
  -- from the first block the room is ahead; from another the loop comes around
  have hcases : 0 < blk ∨ ∃ i, blk < i ∧ i < cfg.blkNums ∧ len < (s.info i).space := by
    rcases Nat.eq_zero_or_pos blk with rfl | hpos
    · obtain ⟨i, hi, hspace⟩ := hc.resolve_left (Nat.lt_irrefl 0)
      exact .inr ⟨i, Nat.pos_of_ne_zero fun h => hroom (h ▸ hspace), hi, hspace⟩
    · exact .inl hpos
  constructor
  · have hsome : (searchLoop cfg.blkNums s blk len (cfg.blkNums + 1) (blk + 1)).isSome := by
      rcases hcases with hfirst | ⟨i, hlt, hi, hspace⟩
      · exact searchLoop_over hfirst (by omega) (by omega) (by omega)
      · exact searchLoop_ahead hspace hi hlt (by omega)
    obtain ⟨found, hsearch⟩ := Option.isSome_iff_exists.mp hsome
    rw [hsearch]
    cases found with
    | none => exact ⟨_, rfl, fun _ => rfl⟩
    | some i =>
      obtain ⟨hi, hspace⟩ := Log.searchLoop_found (by omega) (by omega) hsearch
      dsimp only
      split_ifs <;> exact ⟨_, rfl, fun hfull => absurd (hfull i hi) (Nat.not_le_of_lt hspace)⟩
  · refine .inr fun rounds => ?_
    rcases hcases with hfirst | ⟨i, hlt, hi, hspace⟩
    · have hsub : (inspected cfg.blkNums s blk len rounds (blk + 1)).Sublist _ :=
        inspected_over hfirst (Nat.lt_succ_self blk) hpos
      refine ⟨hsub.nodup (nodup_append.mpr ⟨nodup_range', nodup_range, ?_⟩), fun hmem => ?_⟩
      · intro a ha b hb
        rw [mem_range'_1] at ha
        rw [mem_range] at hb
        omega
      · rcases mem_append.mp (hsub.subset hmem) with h | h
        · rw [mem_range'_1] at h
          omega
        · rw [mem_range] at h
          omega
    · have hsub : (inspected cfg.blkNums s blk len rounds (blk + 1)).Sublist (List.range' (blk + 1) (i + 1 - (blk + 1))) :=
        inspected_ahead hi (.inr ⟨hspace, by omega⟩)
      refine ⟨hsub.nodup nodup_range', fun hmem => ?_⟩
      have h := hsub.subset hmem
      rw [mem_range'_1] at h
      omega

/-- **The search for room comes to its end** exactly unless it starts in the first block and no block has
room: it looks at every other block at most once, and where no block has room it asks for a collection and
reports none. Where it does not come to its end it goes around for ever. -/
theorem search_terminates (cfg : Config) (hcfg : cfg.blkNums > kvGcReserved + 1) (s : State) (len : Nat)
    (hpos : s.writePos / blkSize < cfg.blkNums) :
    (Searches cfg s len ↔ 0 < s.writePos / blkSize ∨ ∃ i < cfg.blkNums, len < (s.info i).space) ∧
      (¬ Searches cfg s len → ∀ rounds,
        searchLoop cfg.blkNums s (s.writePos / blkSize) len rounds (s.writePos / blkSize + 1) = none) := by
  have hendless (hnot : ¬ (0 < s.writePos / blkSize ∨ ∃ i < cfg.blkNums, len < (s.info i).space)) (rounds : Nat) :
      searchLoop cfg.blkNums s (s.writePos / blkSize) len rounds (s.writePos / blkSize + 1) = none := by
    obtain ⟨hfirst, hfull⟩ := not_or.mp hnot
    rw [Nat.eq_zero_of_not_pos hfirst]
    exact searchLoop_endless (by omega) (fun i hi => Nat.le_of_not_lt fun h => hfull ⟨i, hi, h⟩) rounds (by decide)
      (by omega)
  have hiff : Searches cfg s len ↔ 0 < s.writePos / blkSize ∨ ∃ i < cfg.blkNums, len < (s.info i).space := by
    refine ⟨fun ⟨⟨r, hr, _⟩, _⟩ => by_contra fun hnot => ?_, searches_of_room cfg hcfg s len hpos⟩
    have hroom : ¬ len < (s.info (s.writePos / blkSize)).space := fun h => hnot (.inr ⟨_, hpos, h⟩)
    rw [kvItemCalcPos, if_neg hroom, if_pos hcfg, hendless hnot] at hr
    cases hr
  exact ⟨hiff, fun h => hendless fun hc => h (hiff.mpr hc)⟩

/-- Three blocks of which only the first has room, with the write position in the second. -/
def roomAhead : State := { flash := erased, writePos := blkSize, blockInfo := [⟨500, 0⟩, ⟨8, 0⟩, ⟨8, 0⟩] }

theorem search_terminates_around : inspected 3 roomAhead 1 100 4 2 = [2, 0] ∧ Searches .three roomAhead 100 :=
  ⟨by decide, (search_terminates .three (by decide) roomAhead 100 (by decide)).1.mpr (.inl (by decide))⟩

/-- Twelve items fill a store of three blocks; the search for room for one more does not end. -/
theorem search_endless : ∃ t trace,
    (machine .three).run (kvMount .three (fun _ => true) erased) filling = some (t, trace) ∧
      t.writePos / blkSize = 0 ∧ kvItemCalcPos .three t 1000 = none ∧
      ∀ rounds, searchLoop 3 t (t.writePos / blkSize) 1000 rounds (t.writePos / blkSize + 1) = none := by
  obtain ⟨t, trace, hrun, hdiv, hinfo⟩ := filling_runs
  have hendless (rounds : Nat) : searchLoop 3 t 0 1000 rounds 1 = none :=
    searchLoop_endless (by decide) (fun i hi => by rw [hinfo i hi]; decide) rounds (by decide) (by decide)
  refine ⟨t, trace, hrun, hdiv, ?_, fun rounds => ?_⟩
  · rw [kvItemCalcPos, hdiv, if_neg (by rw [hinfo 0 (by decide)]; decide), if_pos (by decide)]
    rw [show Config.blkNums .three = 3 from rfl, hendless]
  · rw [hdiv, hendless]

end Qumios.Kv
