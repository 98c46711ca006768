import Qumios.Kv.Map
import Qumios.Kv.Remount

/-! A clean block in reserve, and mounting again.

`kv_item_calc_pos` opens whatever block has room, the last clean one too, and a mount that
finds none clean formats the first block. As long as no set opens the last clean block
(`Spares`), one is left between any two calls, and a mount finds the map that was there. -/
namespace Qumios.Kv
open Nor Run Assoc List Option

/-! ### Opening a block -/

/-- The search of `kv_item_calc_pos` does not go past a block with room. If one is `d` blocks
ahead and no block up to it is clean, the search does not end at a clean one. -/
theorem searchLoop_ne_clean {s : State} {n cur len i rounds : Nat} (hn : 0 < n) {d : Nat}
    (hroom : len < (s.info ((cur + d) % n)).space)
    (huse : ∀ k, 0 < k → k ≤ d → (s.info ((cur + k) % n)).state ≠ BlkState.clean) {c j : Nat} (hc : c < d) (hj : j ≤ n)
    (hjc : j % n = (cur + (c + 1)) % n) (h : searchLoop n s cur len rounds j = some (some i)) :
    (s.info i).state ≠ BlkState.clean := by
  induction rounds generalizing c j with
  | zero => cases h
  | succ rounds ih =>
    have hwrap : (if j = n then 0 else j) = (cur + (c + 1)) % n := by
      rw [← hjc]
      split
      · next heq => rw [heq, Nat.mod_self]
      · exact (Nat.mod_eq_of_lt (by omega)).symm
    simp only [searchLoop, hwrap] at h
    split at h
    · cases h
    · split at h
      · cases h
        exact huse (c + 1) (by omega) (by omega)
      · next hfull =>
        have hne : c + 1 ≠ d := by
          rintro rfl
          exact hfull hroom
        have hlt : (cur + (c + 1)) % n + 1 ≤ n := Nat.mod_lt _ hn
        refine ih (c := c + 1) (by omega) hlt ?_ h
        rw [Nat.mod_add_mod]
        rfl

/-- A set does not open the last clean block: another is clean, or the item fits the block
written to, or a block in use with room lies ahead of the first clean one. With two blocks
no set opens any. -/
def Spares (cfg : Config) (s : State) : Event → Prop
  | .set key val =>
    2 ≤ s.cleanBlkNums ∨ cfg.blkNums = 2 ∨
      itemLen cfg key.1.length val.length < (s.info (s.writePos / blkSize)).space ∨
      ∃ d < cfg.blkNums, 0 < d ∧
        itemLen cfg key.1.length val.length < (s.info ((s.writePos / blkSize + d) % cfg.blkNums)).space ∧
        ∀ k ≤ d, 0 < k → (s.info ((s.writePos / blkSize + k) % cfg.blkNums)).state ≠ BlkState.clean
  | _ => True

instance (cfg : Config) (s : State) : DecidablePred (Spares cfg s)
  | .set _ _ => inferInstanceAs (Decidable (_ ∨ _ ∨ _ ∨ ∃ d < cfg.blkNums, _))
  | .get .. | .del _ | .delByPrefix _ | .delAll | .gc => isTrue trivial

namespace Log
variable {cfg : Config} {l l' : Log} {i g len : Nat} {before after : List Entry} {e : Entry}

/-- What a set that opens a clean block has looked at. -/
theorem place_opens (hl : l.Running cfg) (h : l.place cfg len = some (l', some i)) (hclean : (l.blk i).mark = .clean) :
    ¬ len < l.space cfg l.cur ∧ cfg.blkNums > kvGcReserved + 1 ∧
      searchLoop cfg.blkNums (l.conc cfg) l.cur len (cfg.blkNums + 1) (l.cur + 1) = some (some i) := by
  rw [place] at h
  split at h
  · cases h
    exact absurd hclean hl.writing
  · next hroom =>
    split at h
    · next hmany =>
      split at h
      · cases h
      · cases h
      · next j hsearch =>
        have hij : j = i := by
          split at h
          · cases h
            rfl
          · cases h
            rfl
        rw [hij] at hsearch
        exact ⟨hroom, hmany, hsearch⟩
    · cases h

/-- So it has not opened the last one. -/
theorem place_spares {key : CString} {val : Bytes} (hl : l.Running cfg)
    (h : l.place cfg (itemLen cfg key.1.length val.length) = some (l', some i)) (hclean : (l.blk i).mark = .clean)
    (hspares : Spares cfg (l.conc cfg) (.set key val)) : 2 ≤ l.cleans := by
  obtain ⟨hat, hb, -⟩ := hl.at hl.inside
  obtain ⟨hroom, hmany, hsearch⟩ := place_opens hl h hclean
  have hcur : (l.conc cfg).writePos / blkSize = l.cur := writePos_div hat hb.fill
  rw [Spares, hcur] at hspares
  rcases hspares with hmore | htwo | hfits | ⟨d, -, hpos, hahead, huse⟩
  · exact hmore
  · simp only [kvGcReserved] at hmany
    omega
  · exact absurd hfits hroom
  · have hinside := hl.inside
    obtain ⟨hi, -⟩ := searchLoop_found (by omega) (by omega) hsearch
    have hstate := searchLoop_ne_clean (c := 0) (by omega) hahead (fun k hk hle => huse k hle hk) hpos
      (by omega) rfl hsearch
    rw [conc_info (hl.at hi).1, Blk.info, hclean] at hstate
    exact absurd rfl hstate

end Log

/-! ### Calls -/

namespace Log
variable {cfg : Config} {l l' : Log} {i : Nat} {before after : List Entry} {e : Entry} {m : Bytes → Option Bytes}

/-- A store that can be mounted again, with a block to spare. -/
structure Kept (cfg : Config) (l : Log) (m : Bytes → Option Bytes) : Prop extends l.Readable cfg m where
  free : l.cleans ≠ 0

theorem Kept.forget (h : l.Kept cfg m) (images : List (List Blk)) : ({ l with images := images } : Log).Kept cfg m :=
  ⟨⟨h.toStores.forget images, h.plain⟩, h.free⟩

theorem forall_put {P : Entry → Prop} {b' : Blk} (h : ∀ b ∈ l.blocks, ∀ e ∈ b.entries, P e) (hb' : ∀ e ∈ b'.entries, P e) :
    ∀ b ∈ l.blocks.set i b', ∀ e ∈ b.entries, P e := by
  intro b hb
  rcases mem_or_eq_of_mem_set hb with hb | rfl
  · exact h b hb
  · exact hb'

theorem At.kept (hat : l.At i before e after) (hl : l.Sound cfg) (hplain : ∀ b ∈ l.blocks, ∀ e ∈ b.entries, e.Plain) :
    (∀ b ∈ (l.kill i before e after).blocks, ∀ e ∈ b.entries, e.Plain) ∧ (l.kill i before e after).cleans = l.cleans := by
  have hclean := hat.ne_clean hl
  have hsoil : (l.blk i).mark.soil ≠ .clean := fun hm => hclean (Mark.soil_eq_clean.mp hm)
  have hcleans := cleans_put (blocks_of_lt hat.block) ⟨(l.blk i).mark.soil, before ++ e.dead :: after⟩
  rw [if_neg hclean, if_neg hsoil] at hcleans
  rw [cleans, kill_blocks]
  exact ⟨forall_put hplain (forall_kill hat.split (hplain _ hat.mem) Entry.Plain.dead), hcleans⟩

section
variable (h : l.Kept cfg m)
include h

theorem Kept.kill (hat : l.At i before e after) (hlive : e.live = true) :
    (l.kill i before e after).Kept cfg (Function.update m e.key none) := by
  obtain ⟨hplain, hcleans⟩ := hat.kept h.toSound h.plain
  exact ⟨⟨h.toStores.kill hat hlive, hplain⟩, by rw [hcleans]; exact h.free⟩

theorem Kept.kills {p : Entry → Bool} (hkills : Kills p l l') : ∃ m', l'.Kept cfg m' := by
  induction hkills with
  | refl => exact ⟨m, h⟩
  | step _ hat hlive _ ih =>
    obtain ⟨m', hm'⟩ := ih
    exact ⟨_, hm'.kill hat hlive⟩

/-- Placing, with a block to spare. -/
theorem Kept.place {key : CString} {val : Bytes} {placed : Log} (hspares : Spares cfg (l.conc cfg) (.set key val))
    (hplace : l.place cfg (itemLen cfg key.1.length val.length) = some (placed, some placed.cur)) :
    (∀ b ∈ placed.blocks, ∀ e ∈ b.entries, e.Plain) ∧ placed.cleans ≠ 0 := by
  rcases place_cases h.toRunning hplace with ⟨ho, -⟩ | ⟨i, b, ho, -, hat, -, hhow⟩
  · cases ho
  · cases ho
    rcases hhow with ⟨-, gc, heq⟩ | ⟨rfl, -, heq⟩
    · rw [heq]
      exact ⟨h.plain, h.free⟩
    · have htwo := place_spares h.toRunning hplace (by rw [blk_eq hat]) hspares
      have hcleans := cleans_put hat ⟨.used, []⟩
      rw [if_pos rfl, if_neg (show ¬ Mark.used = Mark.clean by decide)] at hcleans
      rw [heq]
      refine ⟨forall_put h.plain (by simp), ?_⟩
      show (l.put placed.cur ⟨.used, []⟩).cleans ≠ 0
      omega

/-- **A set keeps the store**, with a block to spare. -/
theorem Kept.set {key : CString} {val : Bytes} {res : Res} (hkey : 0 < key.1.length ∧ key.1.length ≤ itemMaxKeyLen)
    (hval : 0 < val.length ∧ val.length ≤ itemMaxValLen) (hunlike : Unlike (key.1 ++ val))
    (hspares : Spares cfg (l.conc cfg) (.set key val))
    (hset : l.setAt cfg key.1 val (l.find cfg key.1) = some (l', res)) :
    l'.Kept cfg (Event.apply m (.set key val) (.ret res)) := by
  have hgenuine := find_genuine h.toSound key.1
  have hnone (hn : l.find cfg key.1 = none) : m key.1 = none := h.shows.eq_none_iff.mpr (find_none h.toSound hn)
  have hstores : l'.Stores cfg (Event.apply m (.set key val) (.ret res)) := by
    rcases h.toStores.set hkey hval hgenuine hnone hset with ⟨rfl, hl'⟩ | ⟨rfl, hl'⟩
    · exact hl'
    · exact hl'
  rcases setAt_cases h.toRunning hgenuine hset with ⟨rfl, rfl⟩ | ⟨i, before, old, after, -, -, rfl, rfl⟩ |
    ⟨rfl, e, placed, b, hlive, hek, hev, horigin, hmod, hplace, hrun, hat, hroom, hhow⟩
  · exact ⟨⟨hstores, h.plain⟩, h.free⟩
  · exact ⟨⟨hstores, h.plain⟩, h.free⟩
  · have hsize : e.size cfg = itemLen cfg key.1.length val.length := by rw [Entry.size, hek, hev]
    rw [hsize] at hplace
    obtain ⟨hplain, hfree⟩ := h.place hspares hplace
    have he : e.Plain := ⟨by rwa [hek, hev], hmod⟩
    have hplain' : ∀ b ∈ (placed.append placed.cur e).blocks, ∀ e ∈ b.entries, e.Plain := by
      rw [append_eq hat]
      exact forall_put hplain (forall_snoc (hplain b (mem_of_getElem? hat)) he)
    have hfree' : (placed.append placed.cur e).cleans ≠ 0 := by
      rw [append_eq hat]
      exact fun hzero => hfree ((Nat.add_right_cancel (cleans_put hat ⟨b.mark, b.entries ++ [e]⟩)).symm.trans hzero)
    rcases hhow with ⟨-, rfl⟩ | ⟨i, before, old, after, after', -, hat', rfl⟩
    · exact ⟨⟨hstores, hplain'⟩, hfree'⟩
    · have hvalid : e.Valid := ⟨by rw [hek]; exact hkey, by rw [hev]; exact hval, horigin⟩
      obtain ⟨hkept, hcleans⟩ := hat'.kept (hrun.append hat hvalid hlive hroom).toSound hplain'
      exact ⟨⟨hstores, hkept⟩, by rw [hcleans]; exact hfree'⟩

/-- A collection gives a clean block for a clean block. -/
theorem Kept.collect : (l.collect cfg).Kept cfg m := by
  rcases collect_cases cfg h.toRunning with ⟨-, hcollect⟩ | ⟨g, i, hc, -, -, -, hcollect⟩
  · refine ⟨⟨h.toStores.collect, ?_⟩, ?_⟩
    · rw [hcollect]
      exact h.plain
    · rw [hcollect]
      exact h.free
  · obtain ⟨-, hblocks⟩ := hc.blocks hcollect
    have hvacant : Blk.vacant ∈ (l.collect cfg).blocks := by
      refine List.mem_of_getElem? (i := i) ?_
      rw [hblocks, List.getElem?_set_ne hc.ne]
      exact List.getElem?_set_self (List.getElem?_eq_some_iff.mp hc.source).1
    refine ⟨⟨h.toStores.collect, ?_⟩, Nat.pos_iff_ne_zero.mp (List.countP_pos_iff.mpr ⟨_, hvacant, rfl⟩)⟩
    have hfrom := h.plain _ (List.mem_of_getElem? hc.source)
    rw [hblocks]
    exact forall_put (l := l.put i Blk.vacant) (forall_put h.plain (by simp [Blk.vacant]))
      fun e he => hfrom e (List.mem_filter.mp he).1
end

end Log

def Event.Unlike : Event → Prop
  | .set key val => Kv.Unlike (key.1 ++ val)
  | _ => True

instance : DecidablePred Event.Unlike
  | .set key val => inferInstanceAs (Decidable (Kv.Unlike (key.1 ++ val)))
  | .get .. | .del _ | .delByPrefix _ | .delAll | .gc => isTrue trivial

variable {cfg : Config}

/-- **A call keeps the store, and a block to spare.** -/
theorem Log.Kept.call {l l' : Log} {m : Contents} {e : Event} {o : Outcome} (h : l.Kept cfg m) (he : e.Fine)
    (hunlike : e.Unlike) (hspares : Spares cfg (l.conc cfg) e) (hcall : l.call cfg e = some (l', o)) :
    l'.Kept cfg (e.apply m o) := by
  have hfull : Full fun _ => true := fun _ => ⟨rfl, rfl⟩
  cases e with
  | set key val =>
    rw [Log.call] at hcall
    split at hcall
    · cases hcall
      exact h
    · next hparam =>
      have hkey : 0 < key.1.length := length_pos_of_ne_nil he
      obtain ⟨⟨l1, res⟩, hset, hout⟩ := map_eq_some_iff.mp hcall
      cases hout
      exact h.set ⟨hkey, by omega⟩ ⟨by omega, by omega⟩ hunlike hspares hset
  | get key bufferLen =>
    cases hcall
    exact h
  | del key =>
    cases hcall
    have hgenuine := Log.find_genuine h.toSound key.1
    generalize l.find cfg key.1 = r at hgenuine
    cases r with
    | none => exact h
    | some x =>
      obtain ⟨i, before, e, after⟩ := x
      obtain ⟨hat, hlive, hkey, -⟩ := h.genuine hgenuine
      have hkept := h.kill hat hlive
      rw [hkey] at hkept
      exact hkept
  | delByPrefix pre =>
    obtain ⟨l1, -, hkills, hr⟩ := Log.kvDelByPrefix_conc (fun _ => true) pre.2 h.toRunning
    obtain ⟨rfl, hclear⟩ := hr hfull
    cases hcall
    obtain ⟨_, hkept⟩ := h.kills hkills
    exact ⟨⟨h.toStores.killed hkills hclear, hkept.plain⟩, hkept.free⟩
  | delAll =>
    obtain ⟨l1, -, hkills, hr⟩ := Log.kvDelAll_conc (fun _ => true) h.toRunning
    obtain ⟨rfl, hclear⟩ := hr hfull
    cases hcall
    obtain ⟨_, hkept⟩ := h.kills hkills
    exact ⟨⟨h.toStores.killed (q := fun _ => true) hkills hclear, hkept.plain⟩, hkept.free⟩
  | gc =>
    cases hcall
    exact h.collect

/-! ### Runs -/

def Reserves (cfg : Config) (trace : List (Event × Outcome)) (s : State) : Prop :=
  ∃ l : Log, s = l.conc cfg ∧ l.Kept cfg (replay trace)

theorem mount_reserves (hsmall : cfg.blkNums ≤ 15) : Reserves cfg [] (kvMount cfg (fun _ => true) erased) := by
  obtain ⟨images, hmount⟩ := kvMount_erased cfg (fun _ => true) hsmall
  have hstores := Log.boot_stores hsmall images
  have henough := cfg.enough
  have hvacant : Blk.vacant ∈ (Log.boot cfg images).blocks := by
    refine mem_of_getElem? (i := 1) ?_
    rw [Log.boot, getElem?_set_ne (by decide), getElem?_replicate, if_pos (by omega)]
  refine ⟨Log.boot cfg images, hmount, ⟨hstores, fun b hb e he => ?_⟩,
    Nat.pos_iff_ne_zero.mp (countP_pos_iff.mpr ⟨_, hvacant, rfl⟩)⟩
  rcases mem_or_eq_of_mem_set hb with hb | rfl
  · rw [eq_of_mem_replicate hb] at he
    cases he
  · cases he

theorem Reserves.step {trace : List (Event × Outcome)} {s s' : State} {e : Event} {o : Outcome}
    (h : Reserves cfg trace s) (hc : e.Fine ∧ e.Unlike ∧ Spares cfg s e)
    (hstep : (machine cfg).step s e = some (s', o)) : Reserves cfg (trace ++ [(e, o)]) s' := by
  obtain ⟨l, rfl, hl⟩ := h
  obtain ⟨he, hunlike, hspares⟩ := hc
  have hexec : exec cfg (fun _ => true) (l.conc cfg) e = some (s', o) := hstep
  rw [exec_conc hl.toRunning he] at hexec
  obtain ⟨⟨l', o'⟩, hcall, hout⟩ := map_eq_some_iff.mp hexec
  cases hout
  refine ⟨l', rfl, ?_⟩
  rw [replay_snoc]
  exact (hl.forget []).call he hunlike hspares hcall

/-- **A clean block stays in reserve, and mounting again finds the same map.** From an erased
device on, in every run of calls with keys that are not empty and contents that do not look
like items, where no set opens the last clean block: in the state it leads to at least one
block is clean, and `kv_init` on the flash leads to the same values for all keys. -/
theorem reserve_and_remount (cfg : Config) (hsmall : cfg.blkNums ≤ 15) {events : List Event} {t : State}
    {trace : List (Event × Outcome)}
    (h : (machine cfg).Meets (fun s e => e.Fine ∧ e.Unlike ∧ Spares cfg s e)
      (kvMount cfg (fun _ => true) erased) events)
    (hrun : (machine cfg).run (kvMount cfg (fun _ => true) erased) events = some (t, trace)) :
    1 ≤ t.cleanBlkNums ∧ contents cfg (kvMount cfg (fun _ => true) t.flash) = contents cfg t := by
  obtain ⟨l, rfl, hl⟩ := (machine cfg).run_invariant _ (Reserves cfg)
    (fun past s e s' o hs hc hstep => hs.step hc hstep) (mount_reserves hsmall) h hrun
  refine ⟨Nat.pos_of_ne_zero hl.free, ?_⟩
  rw [hl.contents]
  exact hl.remount hl.free

def byteKey (c : UInt8) : CString :=
  if h : c = 0 then ⟨[], List.not_mem_nil⟩ else ⟨[c], fun hmem => h (List.mem_singleton.mp hmem).symm⟩

def twoKeys : List Event :=
  [.set (byteKey 107) [1], .set (byteKey 107) [2, 3], .set (byteKey 108) [4], .del (byteKey 108), .gc]

theorem reserve_and_remount_two_keys :
    ∃ t trace, (machine .three).run (kvMount .three (fun _ => true) erased) twoKeys = some (t, trace) ∧
      1 ≤ t.cleanBlkNums ∧ contents .three (kvMount .three (fun _ => true) t.flash) = contents .three t := by
  have hsome : ((machine .three).run (kvMount .three (fun _ => true) erased) twoKeys).isSome = true := by
    decide +kernel
  obtain ⟨⟨t, trace⟩, hrun⟩ := isSome_iff_exists.mp hsome
  exact ⟨t, trace, hrun, reserve_and_remount .three (by decide) (by decide +kernel) hrun⟩

/-! #### The last clean block -/

/-- Eight long items fill two blocks of three, a collection that is due finds nothing to do, and the
ninth item opens the third block. -/
def exhausting : List Event := filling.take 8 ++ (filling.drop 9).take 2

theorem exhausting_log : ((Log.machine .three).run (Log.boot .three []) exhausting).map
    (fun r => (r.1.cleans,
      decide (∀ b ∈ r.1.blocks, ∀ e ∈ b.entries, itemMagicNum ∉ e.key ++ e.value ∧ e.origin % 4 = 0),
      decide (∀ b ∈ r.1.blocks.drop 1, ∀ e ∈ b.entries, e.key ≠ 1 :: replicate 127 1),
      replay r.2 (1 :: replicate 127 1))) = some (0, true, true, some (replicate 768 0)) := by
  decide +kernel

theorem exhausting_fine : ∀ e ∈ exhausting, e.Fine := by
  decide +kernel

/-! #### A value that looks like an item -/

def Config.two : Config := ⟨2, 4, Nat.le_refl 2, Config.three.aligned⟩

def bulk (c : UInt8) : Event := .set (byteKey c) (List.replicate 768 0)

/-- The value of `k` is changed, so that its item says that an older one is at 28. Both collections
are due. Behind the second one, what is at 28 is the middle of the value of `b`, and reads like a live
item of the key `k`. -/
def lookAlike : List Event :=
  [.set (byteKey 120) (List.replicate 15 0), .set (byteKey 107) [1], .set (byteKey 107) [2], bulk 1, bulk 2, bulk 3,
    bulk 4, bulk 5, .gc, .del (byteKey 1), .del (byteKey 2), .del (byteKey 3), .del (byteKey 4), .del (byteKey 5),
    .del (byteKey 120), .set (byteKey 98) [0, 0, 0, 0x49, 0xEE, 0, 1, 0, 0, 0, 0, 107], .gc]

theorem lookAlike_log : ((Log.machine .two).run (Log.boot .two []) lookAlike).map
    (fun r => (r.1.blocks, r.1.cleans, replay r.2 [98])) =
      some ([⟨.used, [⟨true, [107], [2], 28⟩, ⟨true, [98], [0, 0, 0, 0x49, 0xEE, 0, 1, 0, 0, 0, 0, 107], 0⟩]⟩,
        ⟨.clean, []⟩], 1, some [0, 0, 0, 0x49, 0xEE, 0, 1, 0, 0, 0, 0, 107]) := by
  decide +kernel

theorem lookAlike_fine : ∀ e ∈ lookAlike, e.Fine := by
  decide +kernel

theorem lookAlike_remount : contents .two (kvMount .two (fun _ => true) (flashOf .two
    [⟨.used, [⟨true, [107], [2], 28⟩, ⟨true, [98], [0, 0, 0, 0x49, 0xEE, 0, 1, 0, 0, 0, 0, 107], 0⟩]⟩,
      ⟨.clean, []⟩])) [98] = none := by
  decide +kernel

/-- **The reserve is not kept.** With three blocks, a set opens the last clean block, and a mount
then formats the first block with four items in it. Nor does a mount keep the map where the reserve
is kept: with two blocks, it takes the middle of a value for an old item and deletes it there, and the
value no longer matches its checksum. -/
theorem reserve_used_up :
    (∃ t trace, (machine .three).run (kvMount .three (fun _ => true) erased) exhausting = some (t, trace) ∧
      t.cleanBlkNums = 0 ∧ contents .three t (1 :: List.replicate 127 1) = some (List.replicate 768 0) ∧
      contents .three (kvMount .three (fun _ => true) t.flash) (1 :: List.replicate 127 1) = none) ∧
    ∃ t trace, (machine .two).run (kvMount .two (fun _ => true) erased) lookAlike = some (t, trace) ∧
      t.cleanBlkNums = 1 ∧ contents .two t [98] = some [0, 0, 0, 0x49, 0xEE, 0, 1, 0, 0, 0, 0, 107] ∧
      contents .two (kvMount .two (fun _ => true) t.flash) [98] = none := by
  constructor
  · obtain ⟨⟨l, trace⟩, hlog, hview⟩ := map_eq_some_iff.mp exhausting_log
    have hrun := run_boot .three (by decide) exhausting (cons_ne_nil _ _) exhausting_fine
    have hstores := Log.run_stores (by decide) exhausting_fine hlog
    rw [hlog] at hrun
    simp only [Prod.mk.injEq, decide_eq_true_eq] at hview
    obtain ⟨hcleans, hblocks, hother, hvalue⟩ := hview
    have hreadable : l.Readable .three (replay trace) :=
      ⟨hstores, fun b hb e he => ⟨unlike_of_notMem (hblocks b hb e he).1, (hblocks b hb e he).2⟩⟩
    refine ⟨_, trace, hrun, hcleans, ?_, hreadable.remount_forgets hcleans hother⟩
    rw [hstores.contents]
    exact hvalue
  · obtain ⟨⟨l, trace⟩, hlog, hview⟩ := map_eq_some_iff.mp lookAlike_log
    have hrun := run_boot .two (by decide) lookAlike (cons_ne_nil _ _) lookAlike_fine
    have hstores := Log.run_stores (by decide) lookAlike_fine hlog
    rw [hlog] at hrun
    simp only [Prod.mk.injEq] at hview
    obtain ⟨hblocks, hcleans, hvalue⟩ := hview
    refine ⟨_, trace, hrun, hcleans, ?_, ?_⟩
    · rw [hstores.contents]
      exact hvalue
    · show contents .two (kvMount .two (fun _ => true) (flashOf .two l.blocks)) [98] = none
      rw [hblocks]
      exact lookAlike_remount

end Qumios.Kv
