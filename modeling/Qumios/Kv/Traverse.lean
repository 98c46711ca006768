import Qumios.Kv.Log

/-! What a traversal does on a laid-out log.

`Visits` says where `kv_item_traverse` ends up from a position on, as rules: one for
each thing it can meet there. A position is always the start of an entry or the end
of the last one, so the branches for damaged headers are not taken. -/
namespace Qumios.Kv
open Nor

/-- A block on the flash as the store keeps it. -/
structure Blk.Sound (cfg : Config) (b : Blk) : Prop where
  mark : b.mark ≠ .blank
  fill : b.fill cfg < blkSize
  valid : ∀ e ∈ b.entries, e.Valid

section Entry
variable {cfg : Config} {b : Blk} {before after : List Entry} {e : Entry} (hb : b.Sound cfg)
  (hsplit : b.entries = before ++ e :: after)
include hsplit

theorem fill_kill (m : Mark) : (⟨m, before ++ e.dead :: after⟩ : Blk).fill cfg = b.fill cfg := by
  rw [Blk.fill, Blk.fill, hsplit]
  simp [Entry.dead, Entry.size]

theorem forall_kill {P : Entry → Prop} (h : ∀ x ∈ b.entries, P x) (hdead : P e → P e.dead) :
    ∀ x ∈ before ++ e.dead :: after, P x := by
  rw [hsplit] at h
  simp only [List.forall_mem_append, List.forall_mem_cons] at h ⊢
  exact ⟨h.1, hdead h.2.1, h.2.2⟩

include hb

theorem Blk.Sound.dead {m : Mark} (hm : m ≠ .blank) : (⟨m, before ++ e.dead :: after⟩ : Blk).Sound cfg :=
  ⟨hm, by rw [fill_kill hsplit]; exact hb.fill, forall_kill hsplit hb.valid Entry.Valid.dead⟩

theorem Blk.Sound.posOf_lt {i : Nat} (hi : i < 15) : posOf cfg i before < 65536 := by
  have := entry_inside hsplit hb.fill
  simp only [posOf, blkSize] at this ⊢
  omega

theorem Blk.Sound.posOf_div (i : Nat) : posOf cfg i before / blkSize = i := by
  have := entry_inside hsplit hb.fill
  rw [posOf, Nat.add_assoc, Nat.mul_comm, Nat.mul_add_div blkSize_pos, Nat.div_eq_of_lt (by omega), Nat.add_zero]

end Entry

theorem align_mod (cfg : Config) (n : Nat) : align cfg n % 4 = 0 := by
  rcases cfg.aligned with h | h <;> simp only [align, h] <;> omega

theorem sizes_mod (cfg : Config) (es : List Entry) : sizes cfg es % 4 = 0 := by
  induction es with
  | nil => rfl
  | cons e rest ih =>
    have := align_mod cfg (itemHeaderSize + e.key.length + e.value.length)
    rw [sizes_cons, Entry.size, itemLen]
    omega

theorem posOf_mod (cfg : Config) (i : Nat) (before : List Entry) : posOf cfg i before % 4 = 0 := by
  have := sizes_mod cfg before
  simp only [posOf, blkSize, blkHeaderSize]
  omega

def Full (mem : Mem) : Prop := ∀ pos, mem (.item pos) = true ∧ mem (.buffer pos) = true

section Visits
variable (cfg : Config) (mem : Mem) (func : Item → State → State × Verdict) (i : Nat)

/-- The condition at the end of the loop of `kv_item_traverse`, and what follows it. -/
def arrive (rounds pos : Nat) (s : State) : State × Option Item :=
  if pos + itemHeaderSize < (i + 1) * blkSize then traverseLoop cfg mem func i rounds pos s
  else (noteSpace s i pos, none)

/-- From a position on, the traversal ends with `r`. -/
def Visits (pos : Nat) (s : State) (r : State × Option Item) : Prop :=
  ∀ rounds, (i + 1) * blkSize ≤ pos + itemHeaderSize * rounds → arrive cfg mem func i rounds pos s = r

end Visits

section Rules
variable {cfg : Config} {mem : Mem} {func : Item → State → State × Verdict} {i : Nat} {s s' : State}
  {r : State × Option Item} {bs : List Blk} {b : Blk}

theorem endPos_eq (hi : i < 15) : u16 (i * blkSize + blkSize) = (i + 1) * blkSize := by
  rw [u16_of_lt]
  · exact (Nat.succ_mul i blkSize).symm
  · simp only [blkSize]
    omega

theorem kvItemTraverse_eq (hi : i < 15) (h : Visits cfg mem func i (posOf cfg i []) s r) :
    kvItemTraverse cfg mem func i s = r := by
  have hstart : u16 (i * blkSize + blkHeaderSize) = posOf cfg i [] := by
    rw [u16_of_lt]
    · rw [posOf, sizes_nil, Nat.add_zero]
    · simp only [blkSize, blkHeaderSize]
      omega
  rw [kvItemTraverse, hstart, ← h (blkSize / itemHeaderSize), arrive, if_pos]
  all_goals
    simp only [posOf, sizes_nil, blkSize, blkHeaderSize, itemHeaderSize]
    omega

theorem posOf_snoc (before : List Entry) (e : Entry) :
    posOf cfg i (before ++ [e]) = posOf cfg i before + e.size cfg := by
  simp only [posOf, sizes_append, sizes_cons, sizes_nil]
  omega

/-- Behind the last entry there is an erased header, or no room for one. -/
theorem Visits.end (hflash : s.flash = flashOf cfg bs) (h : bs[i]? = some b) (hb : b.Sound cfg)
    (hmem : posOf cfg i b.entries + itemHeaderSize < (i + 1) * blkSize → mem (.item (posOf cfg i b.entries)) = true) :
    Visits cfg mem func i (posOf cfg i b.entries) s (noteSpace s i (posOf cfg i b.entries), none) := by
  intro rounds hrounds
  have hpos : posOf cfg i b.entries = i * blkSize + b.fill cfg := by
    rw [posOf, Blk.fill, Nat.add_assoc]
  rw [arrive]
  split
  · next hroom =>
    have hfill : b.fill cfg + itemHeaderSize < blkSize := by
      rw [hpos, Nat.succ_mul] at hroom
      omega
    obtain ⟨n, rfl⟩ : ∃ n, rounds = n + 1 := by
      refine Nat.exists_eq_succ_of_ne_zero fun h0 => ?_
      rw [h0] at hrounds
      omega
    obtain ⟨hmagic, hstate⟩ := readHdr_erased cfg h hb.mark hfill
    rw [← hpos, ← hflash] at hmagic hstate
    simp only [traverseLoop, hmem hroom, hmagic, hstate]
    rfl
  · rfl

theorem Visits.noMem {pos : Nat} (hroom : pos + itemHeaderSize < (i + 1) * blkSize)
    (hmem : mem (.item pos) = false) : Visits cfg mem func i pos s (s, none) := by
  intro rounds hrounds
  rw [arrive, if_pos hroom]
  cases rounds with
  | zero => rfl
  | succ n => simp [traverseLoop, hmem]

theorem entry_room {before after : List Entry} {e : Entry} (hb : b.Sound cfg)
    (hsplit : b.entries = before ++ e :: after) : posOf cfg i before + itemHeaderSize < (i + 1) * blkSize := by
  have he : e.Valid := hb.valid e (by rw [hsplit]; simp)
  have hsize := Entry.header_lt_size cfg he
  have hinside := entry_inside hsplit hb.fill
  rw [posOf, Nat.succ_mul]
  omega

section Entry
variable {before after : List Entry} {e : Entry} (hi : i < 15) (hflash : s.flash = flashOf cfg bs)
  (h : bs[i]? = some b) (hb : b.Sound cfg) (hsplit : b.entries = before ++ e :: after)
include hi hflash h hb hsplit

/-- A round of the loop at an entry. -/
theorem arrive_entry {rounds : Nat} (hrounds : (i + 1) * blkSize ≤ posOf cfg i before + itemHeaderSize * rounds)
    (hmem : mem (.item (posOf cfg i before)) = true) :
    ∃ n, (i + 1) * blkSize ≤ posOf cfg i (before ++ [e]) + itemHeaderSize * n ∧
      arrive cfg mem func i rounds (posOf cfg i before) s =
        if e.live then
          match func ⟨e.hdr, posOf cfg i before, e.key.length + e.value.length, []⟩ s with
          | (s, .found item) => (s, some item)
          | (s, .failed) => (s, none)
          | (s, .cont) => arrive cfg mem func i n (posOf cfg i (before ++ [e])) s
        else arrive cfg mem func i n (posOf cfg i (before ++ [e])) (noteDirty s i) := by
  have he : e.Valid := hb.valid e (by rw [hsplit]; simp)
  have hsize := Entry.header_lt_size cfg he
  have hinside := entry_inside hsplit hb.fill
  have hroom := entry_room (i := i) hb hsplit
  obtain ⟨n, rfl⟩ : ∃ n, rounds = n + 1 := by
    refine Nat.exists_eq_succ_of_ne_zero fun h0 => ?_
    rw [h0] at hrounds
    omega
  refine ⟨n, ?_, ?_⟩
  · rw [posOf_snoc]
    rw [Nat.mul_add] at hrounds
    omega
  · have hnext : u16 (posOf cfg i before + e.size cfg) = posOf cfg i (before ++ [e]) := by
      rw [posOf_snoc, u16_of_lt]
      rw [posOf]
      simp only [blkSize] at hinside ⊢
      omega
    have hvalid : ¬ (e.hdr.magic ≠ itemMagicNum ∨ e.hdr.valLen > itemMaxValLen ∨ e.hdr.keyLen > itemMaxKeyLen ∨
        e.hdr.valLen = 0 ∨ e.hdr.keyLen = 0) := by
      refine not_or.mpr ⟨fun hmagic => hmagic rfl, ?_⟩
      have := he.key
      have := he.value
      simp only [Entry.hdr]
      omega
    have hmagic : ¬ (e.hdr.magic ≠ itemMagicNum ∧ e.hdr.magic = 0xFF ∧ e.hdr.state = 0xFF) := fun hm => hm.1 rfl
    have hlen : itemLen cfg e.hdr.keyLen e.hdr.valLen = e.size cfg := rfl
    have hread : readHdr s.flash (posOf cfg i before) = e.hdr := by
      rw [hflash, readHdr_entry h hb.mark hsplit hb.fill he]
    rw [arrive, if_pos hroom, traverseLoop, hread]
    simp only [hmem, Bool.not_true, Bool.false_eq_true, if_false, if_neg hmagic, if_neg hvalid, hlen, hnext,
      endPos_eq hi]
    by_cases hlive : e.live = true
    · rw [if_pos (Entry.state_normal_iff.mpr hlive), if_pos hlive]
      rfl
    · rw [if_neg (fun hn => hlive (Entry.state_normal_iff.mp hn)), if_neg hlive]
      rfl

theorem Visits.dead (hmem : mem (.item (posOf cfg i before)) = true) (hlive : e.live = false)
    (hrest : Visits cfg mem func i (posOf cfg i (before ++ [e])) (noteDirty s i) r) :
    Visits cfg mem func i (posOf cfg i before) s r := by
  intro rounds hrounds
  obtain ⟨n, hn, harrive⟩ := arrive_entry hi hflash h hb hsplit hrounds hmem
  rw [harrive, hlive, if_neg Bool.false_ne_true]
  exact hrest n hn

theorem Visits.cont (hmem : mem (.item (posOf cfg i before)) = true) (hlive : e.live = true)
    (hfunc : func ⟨e.hdr, posOf cfg i before, e.key.length + e.value.length, []⟩ s = (s', .cont))
    (hrest : Visits cfg mem func i (posOf cfg i (before ++ [e])) s' r) :
    Visits cfg mem func i (posOf cfg i before) s r := by
  intro rounds hrounds
  obtain ⟨n, hn, harrive⟩ := arrive_entry hi hflash h hb hsplit hrounds hmem
  rw [harrive, if_pos hlive, hfunc]
  exact hrest n hn

theorem Visits.found {item : Item} (hmem : mem (.item (posOf cfg i before)) = true) (hlive : e.live = true)
    (hfunc : func ⟨e.hdr, posOf cfg i before, e.key.length + e.value.length, []⟩ s = (s', .found item)) :
    Visits cfg mem func i (posOf cfg i before) s (s', some item) := by
  intro rounds hrounds
  obtain ⟨n, -, harrive⟩ := arrive_entry hi hflash h hb hsplit hrounds hmem
  rw [harrive, if_pos hlive, hfunc]

theorem Visits.failed (hmem : mem (.item (posOf cfg i before)) = true) (hlive : e.live = true)
    (hfunc : func ⟨e.hdr, posOf cfg i before, e.key.length + e.value.length, []⟩ s = (s', .failed)) :
    Visits cfg mem func i (posOf cfg i before) s (s', none) := by
  intro rounds hrounds
  obtain ⟨n, -, harrive⟩ := arrive_entry hi hflash h hb hsplit hrounds hmem
  rw [harrive, if_pos hlive, hfunc]

end Entry

end Rules

end Qumios.Kv
