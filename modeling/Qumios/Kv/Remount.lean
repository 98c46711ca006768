import Qumios.Kv.Image

/-! `kv_init` on the flash a store leaves between two calls.

On its way through the blocks `kv_init` follows the origin of each item. A live item of the same
key is nowhere else, so it deletes nothing there, and in the end it knows of each block what the
store knew. If a block is clean, the store goes on with what it holds; if none is, the first
block is formatted. -/
namespace Qumios.Kv
open Nor List

/-! ### Items and their origins -/

/-- Two entries of a list at different places. -/
theorem mem_of_split {before after pre post : List Entry} {e x : Entry} (h : before ++ e :: after = pre ++ x :: post)
    (hne : pre ≠ before) : x ∈ before ∨ x ∈ after := by
  rcases append_eq_append_iff.mp h with ⟨mid, hpre, hrest⟩ | ⟨mid, hbefore, hrest⟩
  · cases mid with
    | nil => exact absurd (by rw [hpre, append_nil]) hne
    | cons a mid =>
      obtain ⟨-, rfl⟩ := List.cons.inj hrest
      exact .inr (by simp)
  · cases mid with
    | nil => exact absurd (by rw [hbefore, append_nil]) hne
    | cons a mid =>
      obtain ⟨rfl, -⟩ := List.cons.inj hrest
      exact .inl (by rw [hbefore]; simp)

namespace Log
variable {cfg : Config} {l : Log} {m : Bytes → Option Bytes} {i j k : Nat} {before after pre post : List Entry}
  {e x : Entry} {s : State} {images : List (List Blk)}

/-- A deletion leaves what is live elsewhere. -/
theorem At.survives (h : l.At i before e after) (hx : l.At j pre x post) (hlive : x.live = true)
    (hne : posOf cfg j pre ≠ posOf cfg i before) : x ∈ (l.kill i before e after).live := by
  have hmem : (l.kill i before e after).blk j ∈ (l.kill i before e after).blocks := by
    refine mem_of_getElem? (blocks_of_lt ?_)
    rw [kill_blocks, length_set]
    exact hx.block
  refine mem_liveOf.mpr ⟨hlive, _, hmem, ?_⟩
  by_cases hij : i = j
  · subst hij
    have hpre : pre ≠ before := fun heq => hne (by rw [heq])
    rw [kill_blk h.block]
    rcases mem_of_split (h.split.symm.trans hx.split) hpre with hx | hx
    · simp [hx]
    · simp [hx]
  · rw [kill_blk_ne hij, hx.split]
    simp

theorem Stores.unique (h : l.Stores cfg m) (hat : l.At i before e after) (hlive : e.live = true)
    (hx : l.At j pre x post) (hxlive : x.live = true) (hkey : x.key = e.key) : posOf cfg j pre = posOf cfg i before := by
  by_contra hne
  have hleft := (h.kill hat hlive).shows.eq_some (hat.survives hx hxlive hne)
  rw [hkey, Function.update_self] at hleft
  cases hleft

/-- A store whose contents do not look like items. -/
structure Readable (cfg : Config) (l : Log) (m : Bytes → Option Bytes) : Prop extends l.Stores cfg m where
  plain : ∀ b ∈ l.blocks, ∀ e ∈ b.entries, e.Plain

theorem Readable.image (h : l.Readable cfg m) : Image cfg l.blocks :=
  ⟨h.length, h.small, fun b hb => .inl (h.block b hb), h.plain⟩

section
variable (h : l.Readable cfg m) (hflash : s.flash = flashOf cfg l.blocks)
include h hflash

/-- What is at the origin of a live item is not deleted. -/
theorem Readable.kvItemDelOrig (hat : l.At k before e after) (hlive : e.live = true)
    (hne : posOf cfg k before ≠ e.origin) :
    kvItemDelOrig (fun _ => true) s ⟨e.hdr, posOf cfg k before, e.key.length + e.value.length, []⟩ = s := by
  obtain ⟨hblk, hb, -⟩ := hat.facts h.toSound
  have horigin := (h.plain _ hat.mem e (by rw [hat.split]; simp)).origin
  rw [Kv.kvItemDelOrig, hflash]
  split
  · rfl
  · next hhdr =>
    simp only [not_or, Decidable.not_not] at hhdr
    obtain ⟨hmagic, hstate, hkeyLen⟩ := hhdr
    -- two bytes at the origin say that there is a live item, so there is one
    obtain ⟨i, c, pre, x, post, hati, hc, hsplit, hxlive, hpos⟩ := h.image.look_alike horigin hmagic hstate
    have hx : l.At i pre x post := ⟨(List.getElem?_eq_some_iff.mp hati).1, by rw [blk_eq hati, hsplit]⟩
    have hoff : e.hdr.originOff = posOf cfg i pre := hpos.symm
    have hread : readHdr (flashOf cfg l.blocks) e.hdr.originOff = x.hdr := by
      rw [hoff]
      exact readHdr_entry hati hc.mark hsplit hc.fill (hc.valid x (by rw [hsplit]; simp))
    have hxkey : read (flashOf cfg l.blocks) (e.hdr.originOff + itemHeaderSize) x.hdr.keyLen = x.key := by
      rw [hoff]
      exact read_key hati hc.mark hsplit hc.fill
    rw [hread] at hkeyLen ⊢
    have hekey : read (flashOf cfg l.blocks) (posOf cfg k before + itemHeaderSize) x.hdr.keyLen = e.key := by
      rw [hkeyLen]
      exact read_key hblk hb.mark hat.split hb.fill
    rw [hxkey, hekey]
    simp only [Bool.not_true, Bool.or_self, Bool.false_eq_true, if_false]
    exact if_pos fun hsame => hne ((h.unique hat hlive hx hxlive hsame).symm.trans hpos)

theorem Readable.itemRecoveryCb (hat : l.At k before e after) (hlive : e.live = true) :
    itemRecoveryCb (fun _ => true) ⟨e.hdr, posOf cfg k before, e.key.length + e.value.length, []⟩ s = (s, .cont) := by
  obtain ⟨hblk, hb, -⟩ := hat.facts h.toSound
  have hread : read s.flash (posOf cfg k before + itemHeaderSize) (e.key.length + e.value.length) = e.key ++ e.value := by
    rw [hflash]
    exact read_content hblk hb.mark hat.split hb.fill
  have hcrc : e.hdr.crc = utilsCrc8 (e.key ++ e.value) := rfl
  simp only [Kv.itemRecoveryCb, hread, hcrc, Bool.not_true, Bool.false_eq_true, if_false, if_true]
  split
  · next hother => rw [h.kvItemDelOrig hflash hat hlive hother.2]
  · rfl

/-- The traversal of a block changes nothing on its way. -/
theorem Readable.visits (hk : k < cfg.blkNums) (hstate : (s.info k).state = (l.blk k).mark.byte)
    (hsplit : (l.blk k).entries = before ++ after) :
    Visits cfg (fun _ => true) (Kv.itemRecoveryCb fun _ => true) k (posOf cfg k before) s
      (noteSpace s k (posOf cfg k (l.blk k).entries), none) := by
  obtain ⟨hat, hb, hk15⟩ := h.at hk
  induction after generalizing before with
  | nil =>
    rw [append_nil] at hsplit
    subst hsplit
    exact Visits.end hflash hat hb fun _ => rfl
  | cons e rest ih =>
    have hmore : (l.blk k).entries = (before ++ [e]) ++ rest := by rw [hsplit, append_assoc]; rfl
    cases hlive : e.live with
    | false =>
      have hsame : noteDirty s k = s := by
        rw [noteDirty, hstate, if_neg]
        exact fun hused => h.toSound.unused hat hsplit hlive (Mark.byte_eq_used.mp hused)
      refine Visits.dead hk15 hflash hat hb hsplit rfl hlive ?_
      rw [hsame]
      exact ih hmore
    | true =>
      have hplace : l.At k before e rest := ⟨by rw [h.length]; exact hk, hsplit⟩
      exact Visits.cont hk15 hflash hat hb hsplit rfl hlive (h.itemRecoveryCb hflash hplace hlive) (ih hmore)

end

/-! ### The first loop -/

theorem modify_append {α : Type} {xs : List α} (h : xs.length = k) (ys : List α) (a : α) (f : α → α) :
    (xs ++ a :: ys).modify k f = xs ++ f a :: ys := by
  subst h
  rw [modify_eq_set (a := a) (by simp), set_append_right _ _ (Nat.le_refl _), Nat.sub_self, set_cons_zero]

/-- One round of it. -/
theorem Readable.initBlock (h : l.Readable cfg m) (hk : k < cfg.blkNums) (images : List (List Blk)) :
    initBlock cfg (fun _ => true) k (Scan cfg l.blocks k images, []) = (Scan cfg l.blocks (k + 1) images, []) := by
  obtain ⟨hat, hb, hk15⟩ := h.at hk
  obtain ⟨n, hn⟩ : ∃ n, cfg.blkNums - k = n + 1 := Nat.exists_eq_succ_of_ne_zero (by omega)
  have hfront : ((l.blocks.take k).map (Blk.info cfg)).length = k := by
    rw [length_map, length_take, h.length]
    omega
  have htake : l.blocks.take (k + 1) = l.blocks.take k ++ [l.blk k] := by
    rw [take_add_one, hat]
    rfl
  have hinfos : (Scan cfg l.blocks k images).blockInfo =
      (l.blocks.take k).map (Blk.info cfg) ++ ⟨0, 0⟩ :: replicate n ⟨0, 0⟩ := by
    rw [Scan, hn, replicate_succ]
  have hmarked : ((Scan cfg l.blocks k images).setState k (l.blk k).mark.byte).blockInfo =
      (l.blocks.take k).map (Blk.info cfg) ++ ⟨0, (l.blk k).mark.byte⟩ :: replicate n ⟨0, 0⟩ := by
    rw [State.setState, hinfos]
    exact modify_append hfront ..
  have hstate : (((Scan cfg l.blocks k images).setState k (l.blk k).mark.byte).info k).state = (l.blk k).mark.byte := by
    rw [State.info, hmarked, getD_eq_getElem?_getD, getElem?_append_right (by omega), hfront, Nat.sub_self]
    rfl
  have hspace : noteSpace ((Scan cfg l.blocks k images).setState k (l.blk k).mark.byte) k
      (posOf cfg k (l.blk k).entries) =
        { Scan cfg l.blocks (k + 1) images with cleanBlkNums := (Scan cfg l.blocks k images).cleanBlkNums } := by
    rw [noteSpace_eq hk15 hb]
    ext1 <;> try rfl
    rw [State.setSpace, hmarked]
    show List.modify _ k _ = (l.blocks.take (k + 1)).map (Blk.info cfg) ++ replicate (cfg.blkNums - (k + 1)) ⟨0, 0⟩
    rw [modify_append hfront, htake, map_append, show cfg.blkNums - (k + 1) = n by omega, append_assoc]
    rfl
  have htraverse := kvItemTraverse_eq hk15
    (h.visits (s := (Scan cfg l.blocks k images).setState k (l.blk k).mark.byte) rfl hk hstate
      (show (l.blk k).entries = [] ++ (l.blk k).entries from rfl))
  rw [hspace] at htraverse
  have hroom : (({ Scan cfg l.blocks (k + 1) images with
      cleanBlkNums := (Scan cfg l.blocks k images).cleanBlkNums } : State).info k).space = blkSize - (l.blk k).fill cfg := by
    rw [State.info, Scan, htake, map_append, getD_eq_getElem?_getD, append_assoc,
      getElem?_append_right (by omega), hfront, Nat.sub_self]
    rfl
  have hcount : (Scan cfg l.blocks (k + 1) images).cleanBlkNums =
      (Scan cfg l.blocks k images).cleanBlkNums + if l.blk k = Blk.vacant then 1 else 0 := by
    show (l.blocks.take (k + 1)).countP _ = _
    rw [htake, countP_append, countP_singleton]
    simp only [decide_eq_true_eq]
    rfl
  have hmagic : (Scan cfg l.blocks k images).flash (k * blkSize) = blkMagicNum := flash_magic cfg hat hb.mark
  have hbyte : (Scan cfg l.blocks k images).flash (k * blkSize + 1) = (l.blk k).mark.byte := flash_state cfg hat hb.mark
  have hvalid : ¬ ((l.blk k).mark.byte ≠ BlkState.used ∧ (l.blk k).mark.byte ≠ BlkState.clean ∧
      (l.blk k).mark.byte ≠ BlkState.dirty) := by
    cases hm : (l.blk k).mark with
    | blank => exact absurd hm hb.mark
    | clean | used | dirty => decide
  rw [Kv.initBlock]
  simp only [hmagic, hbyte, if_true, if_neg hvalid, htraverse, hroom, Mark.byte_eq_clean]
  by_cases hclean : (l.blk k).mark = .clean
  · have hempty := h.fresh _ (mem_of_getElem? hat) hclean
    have hvacant : l.blk k = Blk.vacant := by rw [Blk.vacant, ← hclean, ← hempty]
    rw [if_pos hvacant] at hcount
    rw [if_pos hclean, if_neg (by rw [Blk.fill, hempty]; exact fun hne => hne rfl), ← hcount]
  · have hvacant : l.blk k ≠ Blk.vacant := fun heq => hclean (congrArg Blk.mark heq)
    have hsame : (Scan cfg l.blocks (k + 1) images).cleanBlkNums = (Scan cfg l.blocks k images).cleanBlkNums := by
      rw [hcount, if_neg hvacant]
      rfl
    rw [if_neg hclean, ← hsame]

/-- **The first loop of `kv_init` finds the store as it is.** -/
theorem Readable.scan (h : l.Readable cfg m) :
    (List.range cfg.blkNums).foldl (fun r i => Kv.initBlock cfg (fun _ => true) i r)
        ({ flash := flashOf cfg l.blocks, blockInfo := replicate cfg.blkNums ⟨0, 0⟩ }, []) =
      ((⟨l.blocks, 0, false, []⟩ : Log).parked cfg, []) := by
  have hrounds (k : Nat) (hk : k ≤ cfg.blkNums) :
      (List.range k).foldl (fun r i => Kv.initBlock cfg (fun _ => true) i r)
          ({ flash := flashOf cfg l.blocks, blockInfo := replicate cfg.blkNums ⟨0, 0⟩ }, []) =
        (Scan cfg l.blocks k [], []) := by
    induction k with
    | zero => rfl
    | succ k ih =>
      rw [range_succ, foldl_append, ih (by omega), foldl_cons, foldl_nil, h.initBlock hk]
  rw [hrounds _ (Nat.le_refl _), scan_eq_parked h.length h.fresh]

end Log

/-! ### Where to write -/

/-- Around a ring, what passes from each place to the next holds everywhere if it holds anywhere. -/
theorem ring_all {n : Nat} {P : Nat → Prop} (hnext : ∀ i < n, P i → P (if i + 1 = n then 0 else i + 1)) {i : Nat}
    (hi : i < n) (h : P i) : ∀ j < n, P j := by
  have hup (j d : Nat) (hj : P j) (hd : j + d < n) : P (j + d) := by
    induction d with
    | zero => exact hj
    | succ d ih =>
      have hstep := hnext (j + d) (by omega) (ih (by omega))
      rwa [if_neg (by omega)] at hstep
  have hlast : P (n - 1) := by
    have hend := hup i (n - 1 - i) h (by omega)
    rwa [show i + (n - 1 - i) = n - 1 by omega] at hend
  have hzero : P 0 := by
    have hstep := hnext (n - 1) (by omega) hlast
    rwa [if_pos (by omega)] at hstep
  intro j hj
  have hj' := hup 0 j hzero (by omega)
  rwa [Nat.zero_add] at hj'

section Park
variable {cfg : Config} {l : Log}

theorem parked_state (hl : l.Sound cfg) {i : Nat} (hi : i < cfg.blkNums) :
    ((l.parked cfg).info i).state = (l.blk i).mark.byte := by
  have hinfo : (l.parked cfg).info i = (l.blk i).info cfg := Log.conc_info (hl.at hi).1
  rw [hinfo]
  rfl

/-- With a block clean and another in use, one in use lies in front of a clean one. -/
theorem lastInUse_isSome (hl : l.Sound cfg) (hsome : l.cleans ≠ 0) (hall : l.cleans ≠ cfg.blkNums) :
    (lastInUse cfg (l.parked cfg)).isSome := by
  by_contra hnone
  rw [Bool.not_eq_true, Option.isSome_eq_false_iff, Option.isNone_iff_eq_none] at hnone
  have hno := find?_eq_none.mp hnone
  have hnext (i : Nat) (hi : i < cfg.blkNums) (hmark : (l.blk i).mark ≠ .clean) :
      (l.blk (if i + 1 = cfg.blkNums then 0 else i + 1)).mark ≠ .clean := by
    have hlt : (if i + 1 = cfg.blkNums then 0 else i + 1) < cfg.blkNums := by split <;> omega
    have hblank := (hl.at hi).2.1.mark
    have hstuck := hno i (mem_range.mpr hi)
    rw [parked_state hl hi, parked_state hl hlt] at hstuck
    intro hclean
    rw [hclean] at hstuck
    cases hm : (l.blk i).mark with
    | blank => exact hblank hm
    | clean => exact hmark hm
    | used | dirty =>
      rw [hm] at hstuck
      exact hstuck rfl
  obtain ⟨b, hb, hbmark⟩ : ∃ b ∈ l.blocks, b.mark ≠ .clean := by
    by_contra hevery
    refine hall ?_
    rw [Log.cleans, ← hl.length, countP_eq_length]
    intro b hb
    by_contra hmark
    exact hevery ⟨b, hb, by simpa using hmark⟩
  obtain ⟨c, hc, hcmark⟩ := countP_pos_iff.mp (Nat.pos_of_ne_zero hsome)
  obtain ⟨i, hi, rfl⟩ := mem_iff_getElem.mp hb
  obtain ⟨j, hj, rfl⟩ := mem_iff_getElem.mp hc
  have hat (k : Nat) (hk : k < l.blocks.length) : l.blk k = l.blocks[k] := Log.blk_eq (getElem?_eq_getElem hk)
  have hring := ring_all (P := fun k => (l.blk k).mark ≠ .clean) hnext (by rw [← hl.length]; exact hi)
    (by rw [hat i hi]; exact hbmark) j (by rw [← hl.length]; exact hj)
  rw [hat j hj] at hring
  exact hring (of_decide_eq_true hcmark)

/-- The end of `kv_init`, with a block clean: the store runs. -/
theorem initWritePos_runs (hl : l.Sound cfg) (hsome : l.cleans ≠ 0) :
    ∃ l' : Log, initWritePos cfg (l.parked cfg) = l'.conc cfg ∧ l'.Running cfg ∧ l'.live.Perm l.live := by
  by_cases hall : l.cleans = cfg.blkNums
  · have hat : l.blocks[0]? = some Blk.vacant := by
      obtain ⟨hat, -, -⟩ := hl.at (show 0 < cfg.blkNums by omega)
      have hmem := mem_of_getElem? hat
      have hevery := countP_eq_length.mp (hall.trans hl.length.symm) _ hmem
      have hclean : (l.blk 0).mark = .clean := of_decide_eq_true hevery
      rw [hat, Blk.vacant, ← hclean, ← hl.fresh _ hmem hclean]
    have hused := Blk.empty_sound cfg (show Mark.used ≠ Mark.blank by decide)
    refine ⟨_, initWritePos_vacant hall hat, ⟨?_, show 0 < cfg.blkNums by omega, ?_⟩, liveOf_same hat rfl⟩
    · exact (hl.put ⟨.used, []⟩ hused (by simp) (fun h => by cases h)).congr rfl
    · show ((l.put 0 ⟨.used, []⟩).blk 0).mark ≠ .clean
      rw [Log.blk_eq (Log.put_blocks hat)]
      decide
  · obtain ⟨i, hi⟩ := Option.isSome_iff_exists.mp (lastInUse_isSome hl hsome hall)
    have hlt : i < cfg.blkNums := mem_range.mp (mem_of_find?_eq_some hi)
    refine ⟨_, initWritePos_parked hl hall hi, ⟨hl.congr rfl, hlt, ?_⟩, .refl _⟩
    have hfound := find?_some hi
    simp only [parked_state hl hlt, Bool.and_eq_true, Bool.or_eq_true, beq_iff_eq] at hfound
    intro hclean
    have hclean : (l.blk i).mark = .clean := hclean
    rw [hclean] at hfound
    rcases hfound.1 with h | h <;> cases h

theorem kvMount_of_kvInit {f : Flash} (h : kvInit cfg (fun _ => true) f = l.conc cfg) :
    ∃ gc, kvMount cfg (fun _ => true) f = ({ l with gc := gc } : Log).conc cfg := by
  rw [kvMount, h]
  split
  · exact ⟨true, rfl⟩
  · exact ⟨l.gc, rfl⟩

end Park

/-! ### Mounting -/

namespace Log
variable {cfg : Config} {l : Log} {m : Bytes → Option Bytes}

/-- **Mounting with a clean block**: the store goes on with what it holds. -/
theorem Readable.remount (h : l.Readable cfg m) (hsome : l.cleans ≠ 0) :
    contents cfg (kvMount cfg (fun _ => true) (flashOf cfg l.blocks)) = m := by
  obtain ⟨l', hinit, hrun, hlive⟩ := initWritePos_runs (l := ⟨l.blocks, 0, false, []⟩) (h.toSound.congr rfl) hsome
  obtain ⟨gc, hmount⟩ := kvMount_of_kvInit ((kvInit_eq h.scan rfl hsome).trans hinit)
  have hstores : ({ l' with gc := gc } : Log).Stores cfg m :=
    ⟨⟨hrun.toSound.congr rfl, hrun.inside, hrun.writing⟩, h.shows.perm hlive.symm⟩
  rw [hmount, hstores.contents]

/-- **Mounting without a clean block** formats the first one, whatever it holds: what only it holds is
gone. -/
theorem Readable.remount_forgets {key : Bytes} (h : l.Readable cfg m) (hnone : l.cleans = 0)
    (hother : ∀ b ∈ l.blocks.drop 1, ∀ e ∈ b.entries, e.key ≠ key) :
    contents cfg (kvMount cfg (fun _ => true) (flashOf cfg l.blocks)) key = none := by
  have henough := cfg.enough
  obtain ⟨hat, hb, -⟩ := h.at (show 0 < cfg.blkNums by omega)
  have hmark : (l.blk 0).mark ≠ .clean := fun hclean =>
    List.countP_eq_zero.mp hnone _ (List.mem_of_getElem? hat) (decide_eq_true hclean)
  have hvacant := Blk.empty_sound cfg (show Mark.clean ≠ Mark.blank by decide)
  -- where the store writes does not matter to the formatting
  have hformat : kvBlockFormat ((⟨l.blocks, 0, false, []⟩ : Log).parked cfg) 0 =
      ((⟨l.blocks, 1, false, []⟩ : Log).format 0).parked cfg :=
    congrArg (fun s : State => { s with writePos := 0 })
      (format_conc (l := ⟨l.blocks, 1, false, []⟩) (by decide) hat hmark (Nat.zero_ne_one))
  have hblocks : ((⟨l.blocks, 1, false, []⟩ : Log).format 0).blocks = l.blocks.set 0 Blk.vacant := List.set_set ..
  have hsound : ((⟨l.blocks, 1, false, []⟩ : Log).format 0).Sound cfg :=
    (h.toSound.put (i := 0) Blk.vacant hvacant (fun hused => by cases hused) fun _ => rfl).congr hblocks
  have hmem : Blk.vacant ∈ l.blocks.set 0 Blk.vacant :=
    List.mem_of_getElem? (List.getElem?_set_self (List.getElem?_eq_some_iff.mp hat).1)
  have hsome : ((⟨l.blocks, 1, false, []⟩ : Log).format 0).cleans ≠ 0 := by
    rw [cleans, hblocks]
    exact Nat.pos_iff_ne_zero.mp (List.countP_pos_iff.mpr ⟨_, hmem, rfl⟩)
  obtain ⟨l', hinit, hrun, hlive⟩ := initWritePos_runs hsound hsome
  rw [← hformat] at hinit
  obtain ⟨gc, hmount⟩ := kvMount_of_kvInit ((kvInit_format h.scan rfl hnone).trans hinit)
  have hsound' : ({ l' with gc := gc } : Log).Sound cfg := hrun.toSound.congr rfl
  rw [hmount]
  cases hc : contents cfg (({ l' with gc := gc } : Log).conc cfg) key with
  | none => rfl
  | some val =>
    obtain ⟨e, he, rfl, -⟩ := hsound'.of_contents_some hc
    obtain ⟨-, b, hb, heb⟩ := mem_liveOf.mp (hlive.mem_iff.mp he)
    rw [hblocks] at hb
    obtain ⟨j, hatj⟩ := List.mem_iff_getElem?.mp hb
    rcases getElem?_set_cases hatj with ⟨-, rfl⟩ | ⟨hj, hatj⟩
    · cases heb
    · have hdrop : b ∈ l.blocks.drop 1 := by
        refine List.mem_of_getElem? (i := j - 1) ?_
        rw [List.getElem?_drop, show 1 + (j - 1) = j by omega, hatj]
      exact absurd rfl (hother b hdrop e heb)

end Log

end Qumios.Kv
