import Qumios.Kv.Mount

/-! Flash images as `kv_init` may find them.

`kv_init` follows the origin of an item to wherever it points, and takes what it finds
there for an item if two bytes say so. `look_alike` is why that is an item: positions
are multiples of four, and `Plain` entries hold the two bytes at no such offset. -/
namespace Qumios.Kv
open Nor List

def Unlike (content : Bytes) : Prop :=
  ∀ k, ¬ (content[4 * k]? = some itemMagicNum ∧ content[4 * k + 1]? = some ItemState.normal)

instance (content : Bytes) : Decidable (Unlike content) :=
  decidable_of_iff
    (∀ k < content.length, ¬ (content[4 * k]? = some itemMagicNum ∧ content[4 * k + 1]? = some ItemState.normal))
    ⟨fun h k hk => h k (by have := (List.getElem?_eq_some_iff.mp hk.1).1; omega) hk, fun h k _ => h k⟩

theorem unlike_of_notMem {content : Bytes} (h : itemMagicNum ∉ content) : Unlike content :=
  fun _ hk => h (mem_of_getElem? hk.1)

/-- An entry with such a content; its origin is a position. -/
structure Entry.Plain (e : Entry) : Prop where
  content : Unlike (e.key ++ e.value)
  origin : e.origin % 4 = 0

theorem Entry.Plain.dead {e : Entry} (h : e.Plain) : e.dead.Plain := ⟨h.content, h.origin⟩

section Look
variable {cfg : Config} {e : Entry} {es : List Entry} {y : Nat}

theorem getD_append_left {a b : Bytes} (h : y < a.length) : (a ++ b).getD y 0xFF = a.getD y 0xFF := by
  rw [getD_eq_getElem?_getD, getD_eq_getElem?_getD, getElem?_append_left h]

theorem getD_append_right {a b : Bytes} (h : a.length ≤ y) : (a ++ b).getD y 0xFF = b.getD (y - a.length) 0xFF := by
  rw [getD_eq_getElem?_getD, getD_eq_getElem?_getD, getElem?_append_right h]

theorem Entry.padding_getD (h : y < (e.padding cfg).length) : (e.padding cfg).getD y 0xFF = 0 := by
  rw [getD_eq_getElem _ _ h]
  exact eq_of_mem_replicate (getElem_mem h)

/-- Inside an entry, only its own start looks like a live header. -/
theorem Entry.look (he : e.Valid) (hp : e.Plain) (hy : y % 4 = 0) (hlt : y < e.size cfg)
    (hmagic : (e.string cfg).getD y 0xFF = itemMagicNum) (hstate : (e.string cfg).getD (y + 1) 0xFF = ItemState.normal) :
    y = 0 ∧ e.live = true := by
  have hsize : e.size cfg % 4 = 0 := align_mod cfg _
  have hlen : e.hdr.bytes.length = 8 := rfl
  have hsplit : e.string cfg = e.hdr.bytes ++ ((e.key ++ e.value) ++ e.padding cfg) := by
    rw [e.string_eq cfg]
    simp only [nil_append, append_assoc]
  have htotal : 8 + ((e.key ++ e.value).length + (e.padding cfg).length) = e.size cfg := by
    have := congrArg List.length hsplit
    simp only [length_string, length_append, hlen] at this ⊢
    omega
  rw [hsplit] at hmagic hstate
  by_cases h8 : y < 8
  · obtain rfl | rfl : y = 0 ∨ y = 4 := by omega
    · refine ⟨rfl, ?_⟩
      have hbyte : e.hdr.state = ItemState.normal := hstate
      exact state_normal_iff.mp hbyte
    · have hhigh : UInt8.ofNat (e.value.length / 256) = 0xEE := hstate
      have hval := he.value.2
      simp only [itemMaxValLen] at hval
      have := congrArg UInt8.toNat hhigh
      simp only [UInt8.toNat_ofNat'] at this
      have h238 : (0xEE : UInt8).toNat = 238 := rfl
      omega
  · rw [getD_append_right (by omega), hlen] at hmagic hstate
    by_cases hin : y - 8 < (e.key ++ e.value).length
    · rw [getD_append_left hin] at hmagic
      by_cases hin' : y + 1 - 8 < (e.key ++ e.value).length
      · rw [getD_append_left hin'] at hstate
        refine absurd ⟨?_, ?_⟩ (hp.content ((y - 8) / 4))
        · rw [show 4 * ((y - 8) / 4) = y - 8 by omega, getElem?_eq_getElem hin]
          rw [getD_eq_getElem _ _ hin] at hmagic
          rw [hmagic]
        · rw [show 4 * ((y - 8) / 4) + 1 = y + 1 - 8 by omega, getElem?_eq_getElem hin']
          rw [getD_eq_getElem _ _ hin'] at hstate
          rw [hstate]
      · rw [getD_append_right (by omega)] at hstate
        have hpad : y + 1 - 8 - (e.key ++ e.value).length < (e.padding cfg).length := by omega
        rw [padding_getD hpad] at hstate
        cases hstate
    · rw [getD_append_right (by omega)] at hmagic
      have hpad : y - 8 - (e.key ++ e.value).length < (e.padding cfg).length := by omega
      rw [padding_getD hpad] at hmagic
      cases hmagic

/-- Among entries, only the start of a live one does. -/
theorem strings_look (hvalid : ∀ e ∈ es, e.Valid) (hplain : ∀ e ∈ es, e.Plain) (hy : y % 4 = 0)
    (hmagic : (strings cfg es).getD y 0xFF = itemMagicNum)
    (hstate : (strings cfg es).getD (y + 1) 0xFF = ItemState.normal) :
    ∃ before e after, es = before ++ e :: after ∧ sizes cfg before = y ∧ e.live = true := by
  induction es generalizing y with
  | nil => cases hmagic
  | cons e rest ih =>
    have hsize : e.size cfg % 4 = 0 := align_mod cfg _
    rw [strings_cons] at hmagic hstate
    by_cases hlt : y < e.size cfg
    · rw [getD_append_left (by rw [Entry.length_string]; exact hlt)] at hmagic
      rw [getD_append_left (by rw [Entry.length_string]; omega)] at hstate
      obtain ⟨rfl, hlive⟩ := Entry.look (hvalid e mem_cons_self) (hplain e mem_cons_self) hy hlt hmagic hstate
      exact ⟨[], e, rest, rfl, rfl, hlive⟩
    · rw [getD_append_right (by rw [Entry.length_string]; omega), Entry.length_string] at hmagic hstate
      rw [show y + 1 - e.size cfg = y - e.size cfg + 1 by omega] at hstate
      obtain ⟨before, x, after, rfl, hsizes, hlive⟩ := ih (fun x hx => hvalid x (mem_cons_of_mem e hx))
        (fun x hx => hplain x (mem_cons_of_mem e hx)) (by omega) hmagic hstate
      exact ⟨e :: before, x, after, rfl, by rw [sizes_cons]; omega, hlive⟩

end Look

/-! ### Images -/

/-- The flash of a store at any moment: each block is whole, or erased and without a
header. -/
structure Image (cfg : Config) (bs : List Blk) : Prop where
  length : bs.length = cfg.blkNums
  small : cfg.blkNums ≤ 15
  block : ∀ b ∈ bs, b.Sound cfg ∨ b = ⟨.blank, []⟩
  plain : ∀ b ∈ bs, ∀ e ∈ b.entries, e.Plain

/-- On such an image, what looks like a live item at a position is one. -/
theorem Image.look_alike {cfg : Config} {bs : List Blk} {o : Nat} (h : Image cfg bs) (ho : o % 4 = 0)
    (hmagic : flashOf cfg bs o = itemMagicNum) (hstate : flashOf cfg bs (o + 1) = ItemState.normal) :
    ∃ i b before e after, bs[i]? = some b ∧ b.Sound cfg ∧ b.entries = before ++ e :: after ∧ e.live = true ∧
      posOf cfg i before = o := by
  obtain ⟨i, hi⟩ : ∃ i, i = o / blkSize := ⟨_, rfl⟩
  obtain ⟨x, hx⟩ : ∃ x, x = o % blkSize := ⟨_, rfl⟩
  have hsplit : o = i * blkSize + x := by rw [hi, hx, Nat.div_add_mod']
  have hx4 : x % 4 = 0 := by
    simp only [blkSize] at hx
    omega
  have hlt : x + 1 < blkSize := by
    simp only [blkSize] at hx ⊢
    omega
  rw [hsplit, flashOf, image_at _ _ (by omega)] at hmagic
  rw [hsplit, Nat.add_assoc, flashOf, image_at _ _ hlt] at hstate
  cases hat : bs[i]? with
  | none =>
    have hnone : (bs.map (Blk.string cfg)).getD i [] = [] := by
      rw [getD_eq_getElem?_getD, getElem?_map, hat]
      rfl
    rw [hnone] at hmagic
    cases hmagic
  | some b =>
    rw [getD_of_getElem? (string_getElem? cfg hat)] at hmagic hstate
    have hmem := mem_of_getElem? hat
    rcases h.block b hmem with hb | rfl
    · rw [Blk.string, Mark.string_of_ne hb.mark] at hmagic hstate
      by_cases h4 : x < 4
      · obtain rfl : x = 0 := by omega
        cases hmagic
      · rw [getD_append_right (show 4 ≤ x by omega)] at hmagic
        rw [getD_append_right (show 4 ≤ x + 1 by omega)] at hstate
        have hlen : [blkMagicNum, b.mark.byte, 0, 0].length = 4 := rfl
        rw [hlen] at hmagic hstate
        rw [show x + 1 - 4 = x - 4 + 1 by omega] at hstate
        obtain ⟨before, e, after, hentries, hsizes, hlive⟩ :=
          strings_look hb.valid (h.plain b hmem) (by omega) hmagic hstate
        refine ⟨i, b, before, e, after, hat, hb, hentries, hlive, ?_⟩
        rw [posOf, hsizes, hsplit]
        simp only [blkHeaderSize]
        omega
    · cases hmagic

end Qumios.Kv
