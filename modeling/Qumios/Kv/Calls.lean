import Qumios.Kv.Refines

/-! Setting, getting and deleting one key, on a laid-out log.

With failing allocations a search may stop early and a store may be refused; the
lemmas say what is left of each call then. -/
namespace Qumios.Kv
open Nor List

namespace Log
variable {cfg : Config} {l l' : Log} {i : Nat} {before after : List Entry} {e : Entry}

/-! ### Setting -/

variable {res : Res} {o : Option Nat} {key val : Bytes}

section
variable (hl : l.Running cfg)
include hl

/-- Everything `store` can do. -/
theorem store_cases (h : l.store cfg e = some (l', res)) :
    (res = .noSpace ∧ l' = { l with gc := true }) ∨
    (res = .ok ∧ ∃ placed b, l.place cfg (e.size cfg) = some (placed, some placed.cur) ∧ placed.Running cfg ∧
      placed.blocks[placed.cur]? = some b ∧ b.fill cfg + e.size cfg < blkSize ∧ l' = placed.append placed.cur e) := by
  rw [store] at h
  cases hplace : l.place cfg (e.size cfg) with
  | none =>
    rw [hplace] at h
    cases h
  | some r =>
    obtain ⟨l1, o⟩ := r
    rw [hplace] at h
    cases o with
    | none =>
      cases h
      rcases place_cases hl hplace with ⟨-, rfl⟩ | ⟨i, b, ho, -⟩
      · exact .inl ⟨rfl, rfl⟩
      · cases ho
    | some i =>
      cases h
      obtain ⟨hrun, rfl, b, hat, hroom⟩ := placed hl hplace
      exact .inr ⟨rfl, l1, b, rfl, hrun, hat, hroom, rfl⟩

theorem Running.store (he : e.Valid) (hlive : e.live = true) (h : l.store cfg e = some (l', res)) : l'.Running cfg := by
  rcases store_cases hl h with ⟨-, rfl⟩ | ⟨-, l1, b, -, hrun, hat, hroom, rfl⟩
  · exact ⟨hl.toSound.congr rfl, hl.inside, hl.writing⟩
  · exact hrun.append hat he hlive hroom

/-- Placing leaves the entries alone. -/
theorem place_entries {len : Nat} (h : l.place cfg len = some (l', o)) (j : Nat) :
    (l'.blk j).entries = (l.blk j).entries := by
  rcases place_cases hl h with ⟨-, rfl⟩ | ⟨i, b, -, -, hat, -, hhow⟩
  · rfl
  · rcases hhow with ⟨-, gc, rfl⟩ | ⟨rfl, -, rfl⟩
    · rfl
    · show ((l.put i ⟨.used, []⟩).blk j).entries = _
      by_cases hj : i = j
      · subst hj
        rw [blk_eq (put_blocks hat), blk_eq hat]
      · rw [blk_put_ne hj]

theorem place_length {len : Nat} (h : l.place cfg len = some (l', o)) : l'.blocks.length = l.blocks.length := by
  rw [hl.length, (hl.place h).length]

/-- What was in a block stays in front of what is stored. -/
theorem store_at (h : l.store cfg e = some (l', res)) {old : Entry} (hold : l.At i before old after) :
    l'.At i before old ((l'.blk i).entries.drop (before.length + 1)) := by
  have hdrop (more : List Entry) : before ++ old :: (after ++ more) =
      before ++ old :: (before ++ old :: (after ++ more)).drop (before.length + 1) := by
    rw [← drop_drop, drop_left]
    rfl
  have hkeep : ∃ more, (l'.blk i).entries = (l.blk i).entries ++ more := by
    rcases store_cases hl h with ⟨-, rfl⟩ | ⟨-, l1, b, hplace, hrun, hat, hroom, rfl⟩
    · exact ⟨[], (append_nil _).symm⟩
    · rw [← place_entries hl hplace i]
      by_cases hi : l1.cur = i
      · refine ⟨[e], ?_⟩
        subst hi
        show ((l1.put l1.cur _).blk l1.cur).entries = _
        rw [blk_put_self (by rw [hrun.length]; exact hrun.inside)]
      · refine ⟨[], ?_⟩
        show ((l1.put l1.cur _).blk i).entries = _
        rw [blk_put_ne hi, append_nil]
  have hlen : l'.blocks.length = l.blocks.length := by
    rcases store_cases hl h with ⟨-, rfl⟩ | ⟨-, l1, b, hplace, -, -, -, rfl⟩
    · rfl
    · rw [← place_length hl hplace, append, put, length_set]
  obtain ⟨more, hmore⟩ := hkeep
  have hentries : (l'.blk i).entries = before ++ old :: (after ++ more) := by
    rw [hmore, hold.split]
    simp
  refine ⟨by rw [hlen]; exact hold.block, ?_⟩
  rw [hentries]
  exact hdrop more

end

/-- The comparison in `kv_item_update`. -/
theorem same_value (cfg : Config) (i : Nat) (before : List Entry) (val : Bytes) (old : Entry) :
    ((itemOf cfg i before old).hdr.valLen = val.length ∧
      ((itemOf cfg i before old).store.drop (itemOf cfg i before old).hdr.keyLen).take val.length = val) ↔
      old.value = val := by
  have hdrop : (itemOf cfg i before old).store.drop (itemOf cfg i before old).hdr.keyLen = old.value := drop_left
  rw [hdrop]
  constructor
  · intro h
    rw [← h.2, ← h.1]
    exact (take_length).symm
  · intro h
    subst h
    exact ⟨rfl, take_length⟩

/-- Everything `setAt` can do: find no room, find the value there already, or write an
entry, behind which the old one is deleted. -/
theorem setAt_cases {r : Option (Nat × List Entry × Entry × List Entry)} (hl : l.Running cfg) (hr : l.Genuine key r)
    (h : l.setAt cfg key val r = some (l', res)) :
    (res = .noSpace ∧ l' = { l with gc := true }) ∨
    (∃ i before old after, r = some (i, before, old, after) ∧ old.value = val ∧ res = .ok ∧ l' = l) ∨
    (res = .ok ∧ ∃ e placed b, e.live = true ∧ e.key = key ∧ e.value = val ∧ e.origin < 65536 ∧ e.origin % 4 = 0 ∧
      l.place cfg (e.size cfg) = some (placed, some placed.cur) ∧ placed.Running cfg ∧
      placed.blocks[placed.cur]? = some b ∧ b.fill cfg + e.size cfg < blkSize ∧
      (r = none ∧ l' = placed.append placed.cur e ∨
        ∃ i before old after after', r = some (i, before, old, after) ∧ (placed.append placed.cur e).At i before old after' ∧
          l' = (placed.append placed.cur e).kill i before old after')) := by
  cases r with
  | none =>
    rcases store_cases hl h with hnone | ⟨rfl, placed, b, hplace, hrun, hat, hroom, rfl⟩
    · exact .inl hnone
    · exact .inr (.inr ⟨rfl, _, placed, b, rfl, rfl, rfl, Nat.zero_lt_succ _, rfl, hplace, hrun, hat, hroom, .inl ⟨rfl, rfl⟩⟩)
  | some x =>
    obtain ⟨i, before, old, after⟩ := x
    obtain ⟨hold, -⟩ := hr i before old after rfl
    rw [setAt] at h
    split at h
    · next hsame =>
      cases h
      exact .inr (.inl ⟨i, before, old, after, rfl, hsame, rfl, rfl⟩)
    · obtain ⟨-, hb, hi15⟩ := hold.facts hl.toSound
      cases hstore : l.store cfg ⟨true, key, val, posOf cfg i before⟩ with
      | none =>
        rw [hstore] at h
        cases h
      | some y =>
        obtain ⟨l1, res1⟩ := y
        rw [hstore] at h
        have hat' := store_at hl hstore hold
        rcases store_cases hl hstore with ⟨rfl, rfl⟩ | ⟨rfl, placed, b, hplace, hrun, hat, hroom, rfl⟩
        · cases h
          exact .inl ⟨rfl, rfl⟩
        · cases h
          exact .inr (.inr ⟨rfl, _, placed, b, rfl, rfl, rfl, hb.posOf_lt hold.split hi15, posOf_mod cfg i before, hplace, hrun,
            hat, hroom, .inr ⟨i, before, old, after, _, rfl, hat', rfl⟩⟩)

def concRes (cfg : Config) (r : Log × Res) : State × Res := (r.1.conc cfg, r.2)

theorem kvItemUpdate_conc {mem : Mem} (hmem : mem .store = true) (hl : l.Running cfg)
    (hkey : 0 < key.length ∧ key.length ≤ itemMaxKeyLen) (hval : 0 < val.length ∧ val.length ≤ itemMaxValLen)
    {old : Entry} (hold : l.At i before old after) :
    kvItemUpdate cfg mem (itemOf cfg i before old) key val (l.conc cfg) =
      (l.setAt cfg key val (some (i, before, old, after))).map (concRes cfg) := by
  obtain ⟨-, hb, hi15⟩ := hold.facts hl.toSound
  rw [kvItemUpdate, setAt]
  by_cases hsame : old.value = val
  · rw [if_pos hsame, if_pos ((same_value cfg i before val old).mpr hsame)]
    rfl
  · rw [if_neg hsame, if_neg fun h => hsame ((same_value cfg i before val old).mp h)]
    rw [show (itemOf cfg i before old).pos = posOf cfg i before from rfl, kvItemStore_conc hmem hl]
    cases hstore : l.store cfg ⟨true, key, val, posOf cfg i before⟩ with
    | none => rfl
    | some r =>
      obtain ⟨l', res⟩ := r
      have hrun := hl.store ⟨hkey, hval, hb.posOf_lt hold.split hi15⟩ rfl hstore
      have hat' := store_at hl hstore hold
      cases res with
      | ok =>
        have hkill := kill_conc hi15 (blocks_of_lt hat'.block) (hrun.block _ hat'.mem) hat'.split
        exact congrArg (fun s => some (s, Res.ok)) hkill
      | noSpace => rfl
      | invalidParam => rfl
      | mallocFailed => rfl
      | itemNotFound => rfl

/-- `qm_kv_set` of something that is let through: what it does follows from what its
search finds, if its buffer is granted; without it, it does nothing, or at most find
that the value is there already. -/
theorem kvSet_conc (mem : Mem) (hl : l.Running cfg) (hkey : 0 < key.length ∧ key.length ≤ itemMaxKeyLen)
    (hval : 0 < val.length ∧ val.length ≤ itemMaxValLen) :
    ∃ r, l.Genuine key r ∧ (Full mem → r = l.find cfg key) ∧
      (kvSet cfg mem key val (l.conc cfg) = (l.setAt cfg key val r).map (concRes cfg) ∨
        mem .store = false ∧ kvSet cfg mem key val (l.conc cfg) = some (l.conc cfg, .mallocFailed)) := by
  obtain ⟨r, hgenuine, hfull, hget⟩ := kvItemGet_conc mem key hl.toSound
  refine ⟨r, hgenuine, hfull, ?_⟩
  have hparam : ¬ (val.length = 0 ∨ key.length > itemMaxKeyLen ∨ val.length > itemMaxValLen) := by omega
  rw [kvSet, if_neg hparam, hget]
  cases r with
  | none =>
    cases hmem : mem .store with
    | true => exact .inl (kvItemStore_conc hmem hl key val 0)
    | false => exact .inr ⟨rfl, by simp [kvItemStore, hmem]⟩
  | some x =>
    obtain ⟨i, before, old, after⟩ := x
    obtain ⟨hold, -⟩ := hgenuine i before old after rfl
    cases hmem : mem .store with
    | true => exact .inl (kvItemUpdate_conc hmem hl hkey hval hold)
    | false =>
      by_cases hsame : old.value = val
      · refine .inl ?_
        rw [setAt, if_pos hsame]
        show kvItemUpdate cfg mem (itemOf cfg i before old) key val (l.conc cfg) = _
        rw [kvItemUpdate, if_pos ((same_value cfg i before val old).mpr hsame)]
        rfl
      · refine .inr ⟨rfl, ?_⟩
        show kvItemUpdate cfg mem (itemOf cfg i before old) key val (l.conc cfg) = _
        rw [kvItemUpdate, if_neg fun h => hsame ((same_value cfg i before val old).mp h)]
        simp [kvItemStore, hmem]

/-! ### Getting and deleting -/

/-- `qm_kv_get` answers from what its search finds. -/
theorem kvGet_conc (mem : Mem) (key : Bytes) (bufferLen : Nat) (hl : l.Sound cfg) :
    ∃ r, l.Genuine key r ∧ (Full mem → r = l.find cfg key) ∧
      kvGet cfg mem key bufferLen (l.conc cfg) = (l.conc cfg, answer bufferLen (r.map fun x => x.2.2.1.value)) := by
  obtain ⟨r, hgenuine, hfull, hget⟩ := kvItemGet_conc mem key hl
  refine ⟨r, hgenuine, hfull, ?_⟩
  rw [kvGet, hget]
  cases r with
  | none => by_cases h0 : bufferLen = 0 <;> simp [answer, h0]
  | some x =>
    obtain ⟨i, before, e, after⟩ := x
    have hvalue : ((e.key ++ e.value).drop e.hdr.keyLen).take e.hdr.valLen = e.value := by
      rw [show (e.key ++ e.value).drop e.hdr.keyLen = e.value from drop_left]
      exact take_length
    by_cases h0 : bufferLen = 0
    · simp [answer, h0]
    · by_cases hsmall : bufferLen < e.value.length
      · simp [answer, h0, hsmall, itemAt, itemOf, Entry.hdr]
      · have hsmall' : ¬ bufferLen < e.hdr.valLen := hsmall
        simp only [answer, h0, hsmall, itemAt, itemOf, hsmall', Option.map_some, if_false, hvalue]

/-- `qm_kv_del` deletes what its search finds. -/
theorem kvDel_conc (mem : Mem) (key : Bytes) (hl : l.Sound cfg) :
    ∃ r, l.Genuine key r ∧ (Full mem → r = l.find cfg key) ∧
      kvDel cfg mem key (l.conc cfg) = concRes cfg (l.delAt r) := by
  obtain ⟨r, hgenuine, hfull, hget⟩ := kvItemGet_conc mem key hl
  refine ⟨r, hgenuine, hfull, ?_⟩
  rw [kvDel, hget]
  cases r with
  | none => rfl
  | some x =>
    obtain ⟨i, before, e, after⟩ := x
    obtain ⟨hat, -⟩ := hgenuine i before e after rfl
    obtain ⟨hblock, hb, hi15⟩ := hat.facts hl
    exact congrArg (fun s => (s, Res.ok)) (kill_conc hi15 hblock hb hat.split)

end Log

end Qumios.Kv
