import Qumios.Kv.Contents

/-! Mounting: how `kv_init` goes through the blocks, and where it ends up on an erased
device.

`Scan` is the state of its first loop: the manager knows the blocks it has been
through and nothing of the others. -/
namespace Qumios.Kv
open Nor List

theorem take_set_succ {α : Type} {xs : List α} {k : Nat} (h : k < xs.length) (a : α) :
    (xs.set k a).take (k + 1) = xs.take k ++ [a] := by
  rw [take_add_one, take_set_of_le (Nat.le_refl k), getElem?_set_self h]
  rfl

theorem set_append_replicate {α : Type} (xs : List α) (n : Nat) (z a : α) :
    (xs ++ replicate (n + 1) z).set xs.length a = (xs ++ [a]) ++ replicate n z := by
  rw [set_append_right _ _ (Nat.le_refl _), Nat.sub_self, replicate_succ, set_cons_zero,
    append_assoc]
  rfl

section Scan
variable (cfg : Config)

def Blk.vacant : Blk := ⟨.clean, []⟩

/-- The manager `k` blocks into the first loop of `kv_init`. -/
def Scan (bs : List Blk) (k : Nat) (images : List (List Blk)) : State where
  flash := flashOf cfg bs
  cleanBlkNums := (bs.take k).countP fun b => b = Blk.vacant
  blockInfo := (bs.take k).map (Blk.info cfg) ++ List.replicate (cfg.blkNums - k) ⟨0, 0⟩
  images := images.map (flashOf cfg)

variable {cfg} {bs : List Blk} {k : Nat} {images : List (List Blk)} {mem : Mem} {unclean : List Nat}

/-- A block that was erased gets its header. -/
theorem initBlock_blank (hlen : bs.length = cfg.blkNums) (hsmall : cfg.blkNums ≤ 15) (hk : k < cfg.blkNums)
    (h : bs[k]? = some ⟨.blank, []⟩) :
    initBlock cfg mem k (Scan cfg bs k images, unclean) =
      (Scan cfg (bs.set k Blk.vacant) (k + 1) (images ++ [bs, bs.set k Blk.vacant]), unclean) := by
  have hmagic : flashOf cfg bs (k * blkSize) = 0xFF := by
    have hat := image_at (bs.map (Blk.string cfg)) k (show 0 < blkSize by decide)
    rw [Nat.add_zero, getD_of_getElem? (string_getElem? cfg h)] at hat
    exact hat
  have hu16 : u16 (k * blkSize) = k * blkSize := Log.u16_block (Nat.lt_of_lt_of_le hk hsmall)
  have herase : erase blkSize (flashOf cfg bs) (u16 (k * blkSize) / blkSize) = flashOf cfg bs := by
    rw [hu16, Nat.mul_div_cancel _ blkSize_pos, erase_block cfg h, set_eq_self h]
  have hheader : program (flashOf cfg bs) (u16 (k * blkSize)) [blkMagicNum, BlkState.clean, 0, 0] =
      flashOf cfg (bs.set k Blk.vacant) := by
    rw [hu16]
    exact program_header cfg h
  have hlt : k < bs.length := by omega
  have htake := take_set_succ hlt Blk.vacant
  have hformat : kvBlockFormat (Scan cfg bs k images) k =
      Scan cfg (bs.set k Blk.vacant) (k + 1) (images ++ [bs, bs.set k Blk.vacant]) := by
    simp only [kvBlockFormat, rawErase, rawWrite, Scan]
    rw [herase, hheader, htake]
    ext1
    · rfl
    · rfl
    · simp [Blk.vacant]
    · rfl
    · obtain ⟨n, hn⟩ : ∃ n, cfg.blkNums - k = n + 1 := Nat.exists_eq_succ_of_ne_zero (by omega)
      have hfront : ((bs.take k).map (Blk.info cfg)).length = k := by
        rw [length_map, length_take]
        omega
      have hset := set_append_replicate ((bs.take k).map (Blk.info cfg)) n ⟨0, 0⟩ (Blk.info cfg Blk.vacant)
      rw [hfront, ← hn] at hset
      show List.set _ k (Blk.info cfg Blk.vacant) = _
      rw [hset, map_append, show cfg.blkNums - (k + 1) = n by omega]
      rfl
    · simp
    · rfl
  have hno : ¬ (Scan cfg bs k images).flash (k * blkSize) = blkMagicNum := by
    show ¬ flashOf cfg bs (k * blkSize) = blkMagicNum
    rw [hmagic]
    decide
  rw [initBlock]
  simp only [if_neg hno, hformat]

/-- The state a log stands for, before `kv_init` has chosen where to write. -/
def Log.parked (cfg : Config) (l : Log) : State := { l.conc cfg with writePos := 0 }

/-- The whole first loop, if no block is left that a collection was copying to. -/
theorem scan_eq_parked (hlen : bs.length = cfg.blkNums) (hfresh : ∀ b ∈ bs, b.mark = .clean → b.entries = []) :
    Scan cfg bs cfg.blkNums images = (⟨bs, 0, false, images⟩ : Log).parked cfg := by
  have htake : bs.take cfg.blkNums = bs := by rw [← hlen, take_length]
  ext1
  · rfl
  · rfl
  · show (bs.take cfg.blkNums).countP _ = bs.countP _
    rw [htake]
    refine countP_congr fun b hb => ?_
    simp only [decide_eq_true_eq]
    constructor
    · intro h
      rw [h]
      rfl
    · intro h
      obtain ⟨mark, entries⟩ := b
      have := hfresh _ hb h
      dsimp only at h this
      rw [h, this]
      rfl
  · rfl
  · show (bs.take cfg.blkNums).map _ ++ replicate _ _ = bs.map _
    rw [htake, Nat.sub_self, replicate_zero, append_nil]
  · rfl
  · rfl

/-! ### Where to write -/

variable {l : Log} {i : Nat}

theorem initWritePos_of_all {s : State} (h : s.cleanBlkNums = cfg.blkNums) :
    initWritePos cfg s =
      { (kvStateSet { s with writePos := blkHeaderSize } 0 BlkState.used).setState 0 BlkState.used with
        cleanBlkNums := s.cleanBlkNums - 1 } := by
  rw [initWritePos, if_pos h]
  rfl

theorem initWritePos_of_some {s : State} (h : s.cleanBlkNums ≠ cfg.blkNums) (hi : lastInUse cfg s = some i) :
    initWritePos cfg s = { s with writePos := u16 (i * blkSize + blkSize - (s.info i).space) } := by
  rw [initWritePos, if_neg h, hi]

/-- Everything is clean: the first block comes into use. -/
theorem initWritePos_vacant (hall : l.cleans = cfg.blkNums) (hat : l.blocks[0]? = some Blk.vacant) :
    initWritePos cfg (l.parked cfg) = ({ l.put 0 ⟨.used, []⟩ with cur := 0 } : Log).conc cfg := by
  have hused := Log.used_conc (l := { l with cur := 0 }) cfg (by decide) hat rfl
  have hstart : { l.parked cfg with writePos := blkHeaderSize } = ({ l with cur := 0 } : Log).conc cfg := by
    have hpos : blkHeaderSize = 0 * blkSize + (l.blk 0).fill cfg := by
      rw [Log.blk_eq hat]
      rfl
    rw [hpos]
    rfl
  rw [initWritePos_of_all hall, hstart]
  exact hused

/-- Otherwise the block in front of a clean one is written to. -/
theorem initWritePos_parked (hl : l.Sound cfg) (hsome : l.cleans ≠ cfg.blkNums)
    (hi : lastInUse cfg (l.parked cfg) = some i) :
    initWritePos cfg (l.parked cfg) = ({ l with cur := i } : Log).conc cfg := by
  have hlt : i < cfg.blkNums := mem_range.mp (mem_of_find?_eq_some hi)
  obtain ⟨hat, hb, hi15⟩ := hl.at hlt
  have hinfo : (l.parked cfg).info i = (l.blk i).info cfg := Log.conc_info hat
  have hfill := hb.fill
  have hpos : u16 (i * blkSize + blkSize - ((l.parked cfg).info i).space) = i * blkSize + (l.blk i).fill cfg := by
    rw [hinfo, u16_of_lt] <;> simp only [Blk.info, blkSize] at hfill ⊢ <;> omega
  rw [initWritePos_of_some hsome hi, hpos]
  rfl

end Scan

variable {cfg : Config} {unclean : List Nat}

theorem kvInit_eq {mem : Mem} {f : Flash} {s s' : State}
    (hscan : (List.range cfg.blkNums).foldl (fun r i => initBlock cfg mem i r)
      ({ flash := f, blockInfo := replicate cfg.blkNums ⟨0, 0⟩ }, []) = (s, unclean))
    (hunclean : unclean.reverse.foldl initUnclean s = s') (hclean : s'.cleanBlkNums ≠ 0) :
    kvInit cfg mem f = initWritePos cfg s' := by
  rw [kvInit, hscan]
  simp only [hunclean]
  rw [if_neg hclean]

theorem kvInit_format {mem : Mem} {f : Flash} {s s' : State}
    (hscan : (List.range cfg.blkNums).foldl (fun r i => initBlock cfg mem i r)
      ({ flash := f, blockInfo := replicate cfg.blkNums ⟨0, 0⟩ }, []) = (s, unclean))
    (hunclean : unclean.reverse.foldl initUnclean s = s') (hclean : s'.cleanBlkNums = 0) :
    kvInit cfg mem f = initWritePos cfg (kvBlockFormat s' 0) := by
  rw [kvInit, hscan]
  simp only [hunclean]
  rw [if_pos hclean]

/-! ### An erased device -/

def Log.boot (cfg : Config) (images : List (List Blk)) : Log where
  blocks := (List.replicate cfg.blkNums Blk.vacant).set 0 ⟨.used, []⟩
  cur := 0
  images := images

theorem scan_erased (cfg : Config) (mem : Mem) (hsmall : cfg.blkNums ≤ 15) {k : Nat} (hk : k ≤ cfg.blkNums) :
    ∃ images, (List.range k).foldl (fun r i => initBlock cfg mem i r)
        ({ flash := erased, blockInfo := replicate cfg.blkNums ⟨0, 0⟩ }, []) =
      (Scan cfg (replicate k Blk.vacant ++ replicate (cfg.blkNums - k) ⟨.blank, []⟩) k images, []) := by
  induction k with
  | zero =>
    refine ⟨[], ?_⟩
    rw [Nat.sub_zero, replicate_zero, nil_append, Scan, flashOf_blank]
    rfl
  | succ k ih =>
    obtain ⟨images, hfold⟩ := ih (by omega)
    obtain ⟨n, hn⟩ : ∃ n, cfg.blkNums - k = n + 1 := Nat.exists_eq_succ_of_ne_zero (by omega)
    have hset := set_append_replicate (replicate k Blk.vacant) n ⟨.blank, []⟩ Blk.vacant
    rw [length_replicate, ← replicate_succ'] at hset
    have hat : (replicate k Blk.vacant ++ replicate (n + 1) (⟨.blank, []⟩ : Blk))[k]? = some ⟨.blank, []⟩ := by
      rw [getElem?_append_right (by simp), length_replicate, Nat.sub_self]
      rfl
    rw [hn] at hfold
    refine ⟨images ++ [replicate k Blk.vacant ++ replicate (n + 1) ⟨.blank, []⟩,
      replicate (k + 1) Blk.vacant ++ replicate n ⟨.blank, []⟩], ?_⟩
    rw [range_succ, foldl_append, hfold, foldl_cons, foldl_nil,
      initBlock_blank (by simp; omega) hsmall (by omega) hat, hset, show cfg.blkNums - (k + 1) = n by omega]

/-- `qm_kv_init` on an erased device. -/
theorem kvMount_erased (cfg : Config) (mem : Mem) (hsmall : cfg.blkNums ≤ 15) :
    ∃ images, kvMount cfg mem erased = (Log.boot cfg images).conc cfg := by
  obtain ⟨images, hscan⟩ := scan_erased cfg mem hsmall (Nat.le_refl cfg.blkNums)
  rw [Nat.sub_self, replicate_zero, append_nil] at hscan
  have hlen : (replicate cfg.blkNums Blk.vacant).length = cfg.blkNums := length_replicate
  rw [scan_eq_parked hlen fun b hb _ => by rw [eq_of_mem_replicate hb]; rfl] at hscan
  have henough := cfg.enough
  obtain ⟨n, hn⟩ : ∃ n, cfg.blkNums = n + 1 := Nat.exists_eq_succ_of_ne_zero (by omega)
  have hall : (⟨replicate cfg.blkNums Blk.vacant, 0, false, images⟩ : Log).cleans = cfg.blkNums := by
    simp [Log.cleans, Blk.vacant, countP_replicate]
  have hat : (⟨replicate cfg.blkNums Blk.vacant, 0, false, images⟩ : Log).blocks[0]? = some Blk.vacant := by
    rw [hn]
    rfl
  have hinit : kvInit cfg mem erased = (Log.boot cfg (images ++ [(Log.boot cfg []).blocks])).conc cfg := by
    have hsome : ((⟨replicate cfg.blkNums Blk.vacant, 0, false, images⟩ : Log).parked cfg).cleanBlkNums ≠ 0 := by
      show Log.cleans _ ≠ 0
      omega
    rw [kvInit_eq hscan rfl hsome]
    exact initWritePos_vacant hall hat
  have hblk : (Log.boot cfg (images ++ [(Log.boot cfg []).blocks])).blocks[0]? = some ⟨.used, []⟩ := by
    rw [Log.boot, hn]
    rfl
  have hspace : (((Log.boot cfg (images ++ [(Log.boot cfg []).blocks])).conc cfg).info 0).space = blkSize - blkHeaderSize := by
    rw [Log.conc_info hblk]
    rfl
  have hcur : ((Log.boot cfg (images ++ [(Log.boot cfg []).blocks])).conc cfg).writePos / blkSize = 0 :=
    Log.writePos_div hblk (show blkHeaderSize + 0 < blkSize by decide)
  refine ⟨images ++ [(Log.boot cfg []).blocks], ?_⟩
  rw [kvMount, hinit, hcur, hspace, if_neg]
  exact fun h => absurd h.1 (by decide)

theorem Blk.empty_sound (cfg : Config) {m : Mark} (hm : m ≠ .blank) : (⟨m, []⟩ : Blk).Sound cfg :=
  ⟨hm, show blkHeaderSize + 0 < blkSize by decide, by simp⟩

/-- An erased device holds nothing. -/
theorem Log.boot_stores (hsmall : cfg.blkNums ≤ 15) (images : List (List Blk)) :
    (Log.boot cfg images).Stores cfg fun _ => none := by
  have henough := cfg.enough
  have hmem (b : Blk) (hb : b ∈ (Log.boot cfg images).blocks) : b = Blk.vacant ∨ b = ⟨.used, []⟩ := by
    rcases mem_or_eq_of_mem_set hb with hb | hb
    · exact .inl (eq_of_mem_replicate hb)
    · exact .inr hb
  have hempty (b : Blk) (hb : b ∈ (Log.boot cfg images).blocks) : b.entries = [] := by
    rcases hmem b hb with rfl | rfl <;> rfl
  have hblk : (Log.boot cfg images).blocks[0]? = some ⟨.used, []⟩ := by
    obtain ⟨n, hn⟩ : ∃ n, cfg.blkNums = n + 1 := Nat.exists_eq_succ_of_ne_zero (by omega)
    rw [Log.boot, hn]
    rfl
  have hsound : (Log.boot cfg images).Sound cfg := by
    refine ⟨by simp [Log.boot], hsmall, fun b hb => ?_, fun b hb _ => ?_, fun b hb _ => hempty b hb⟩
    · rcases hmem b hb with rfl | rfl
      · exact Blk.empty_sound cfg (show Mark.clean ≠ Mark.blank by decide)
      · exact Blk.empty_sound cfg (show Mark.used ≠ Mark.blank by decide)
    · rw [hempty b hb]
      simp
  have hlive : (Log.boot cfg images).live = [] := by
    refine eq_nil_iff_forall_not_mem.mpr fun e he => ?_
    obtain ⟨-, b, hb, he⟩ := mem_liveOf.mp he
    rw [hempty b hb] at he
    cases he
  refine ⟨⟨hsound, show 0 < cfg.blkNums by omega, ?_⟩, by rw [hlive]; exact .nil⟩
  rw [show (Log.boot cfg images).cur = 0 from rfl, Log.blk_eq hblk]
  decide

end Qumios.Kv
