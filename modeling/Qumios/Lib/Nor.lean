import Qumios.Lib.Buffer

/-! NOR flash: memory that is erased by the sector and programmed by clearing bits.

A device is its bytes by address. Sectors that are only ever programmed in order,
each from its start on, are strings (`image`): a program behind the end of a string
appends to it, one inside it clears bits of it, and an erase empties it. -/
namespace Qumios.Nor
open List Nat

abbrev Flash := Nat → UInt8

def erased : Flash := fun _ => 0xFF

def program (f : Flash) (pos : Nat) (data : Bytes) : Flash :=
  fun a => if pos ≤ a then f a &&& data.getD (a - pos) 0xFF else f a

def erase (size : Nat) (f : Flash) (sector : Nat) : Flash :=
  fun a => if a / size = sector then 0xFF else f a

def read (f : Flash) (pos n : Nat) : Bytes := (List.range n).map fun k => f (pos + k)

def image (size : Nat) (sectors : List Bytes) : Flash :=
  fun a => (sectors.getD (a / size) []).getD (a % size) 0xFF

@[simp] theorem length_read (f : Flash) (pos n : Nat) : (read f pos n).length = n := by
  simp [read]

theorem image_at {size x : Nat} (sectors : List Bytes) (i : Nat) (hx : x < size) :
    image size sectors (i * size + x) = (sectors.getD i []).getD x 0xFF := by
  have hpos : 0 < size := lt_of_le_of_lt (zero_le x) hx
  have hdiv : (i * size + x) / size = i := by
    rw [mul_comm, mul_add_div hpos, div_eq_of_lt hx, add_zero]
  have hmod : (i * size + x) % size = x := by
    rw [mul_comm, mul_add_mod, mod_eq_of_lt hx]
  rw [image, hdiv, hmod]

theorem flash_ext {size : Nat} (hsize : 0 < size) {f g : Flash}
    (h : ∀ i x, x < size → f (i * size + x) = g (i * size + x)) : f = g := by
  funext a
  have := h (a / size) (a % size) (mod_lt a hsize)
  rwa [div_add_mod'] at this

section Sectors
variable {size i : Nat} {sectors : List Bytes} {s : Bytes}

theorem getD_of_getElem? (h : sectors[i]? = some s) : sectors.getD i [] = s := by
  rw [getD_eq_getElem?_getD, h]
  rfl

theorem getD_set (h : sectors[i]? = some s) (t : Bytes) (j : Nat) :
    (sectors.set i t).getD j [] = if j = i then t else sectors.getD j [] := by
  have hi : i < sectors.length := (List.getElem?_eq_some_iff.mp h).1
  rw [List.getD_eq_getElem?_getD, List.getD_eq_getElem?_getD, List.getElem?_set]
  by_cases hj : i = j
  · subst hj
    simp [hi]
  · rw [if_neg hj, if_neg (Ne.symm hj)]

theorem read_image {before data after : Bytes} (h : sectors[i]? = some (before ++ data ++ after))
    (hroom : before.length + data.length ≤ size) :
    read (image size sectors) (i * size + before.length) data.length = data := by
  refine ext_getElem (by simp) fun k hk hk' => ?_
  have hk : k < data.length := hk'
  simp only [read, getElem_map, getElem_range]
  rw [Nat.add_assoc, image_at sectors i (by omega), getD_of_getElem? h, getD_eq_getElem?_getD,
    append_assoc, getElem?_append_right (Nat.le_add_right _ _), Nat.add_sub_cancel_left,
    getElem?_append_left hk, getElem?_eq_getElem hk]
  rfl

theorem image_behind {x : Nat} (h : sectors[i]? = some s) (hx : s.length ≤ x) (hroom : x < size) :
    image size sectors (i * size + x) = 0xFF := by
  rw [image_at sectors i hroom, getD_of_getElem? h, getD_eq_getElem?_getD, getElem?_eq_none hx]
  rfl

/-- A program behind the end of a sector's string appends to it. -/
theorem program_append (h : sectors[i]? = some s) (data : Bytes) (hroom : s.length + data.length ≤ size)
    (hsize : 0 < size) :
    program (image size sectors) (i * size + s.length) data = image size (sectors.set i (s ++ data)) := by
  refine flash_ext hsize fun j x hx => ?_
  rw [program, image_at _ j hx, image_at _ j hx, getD_set h]
  by_cases hj : j = i
  · subst hj
    rw [if_pos rfl, getD_of_getElem? h]
    by_cases hle : j * size + s.length ≤ j * size + x
    · have hle' : s.length ≤ x := by omega
      rw [if_pos hle, Nat.add_sub_add_left]
      simp only [getD_eq_getElem?_getD]
      rw [getElem?_eq_none hle', getElem?_append_right hle']
      exact UInt8.neg_one_and
    · have hlt : x < s.length := by omega
      rw [if_neg hle]
      simp only [getD_eq_getElem?_getD]
      rw [getElem?_append_left hlt]
  · split
    · next hle =>
      -- a later sector: the data does not reach it
      have hlt : i < j := by
        by_contra hge
        have hmul : (j + 1) * size ≤ i * size := Nat.mul_le_mul_right size (by omega)
        rw [Nat.add_mul, Nat.one_mul] at hmul
        omega
      have hmul : (i + 1) * size ≤ j * size := Nat.mul_le_mul_right size hlt
      rw [Nat.add_mul, Nat.one_mul] at hmul
      have hout : data.length ≤ j * size + x - (i * size + s.length) := by omega
      rw [getD_eq_default data 0xFF hout]
      exact UInt8.and_neg_one
    · rfl

/-- A program of one byte inside a sector's string clears bits of that byte. -/
theorem program_byte {before after : Bytes} {b : UInt8} (h : sectors[i]? = some (before ++ b :: after)) (c : UInt8)
    (hroom : before.length < size) :
    program (image size sectors) (i * size + before.length) [c] =
      image size (sectors.set i (before ++ (b &&& c) :: after)) := by
  refine flash_ext (lt_of_le_of_lt (zero_le _) hroom) fun j x hx => ?_
  rw [program, image_at _ j hx, image_at _ j hx, getD_set h]
  have hother (hne : j * size + x ≠ i * size + before.length) (v : UInt8) :
      (if i * size + before.length ≤ j * size + x then
        v &&& [c].getD (j * size + x - (i * size + before.length)) 0xFF else v) = v := by
    split
    · next hle =>
      obtain ⟨k, hk⟩ : ∃ k, j * size + x - (i * size + before.length) = k + 1 :=
        exists_eq_succ_of_ne_zero (by omega)
      rw [hk]
      exact UInt8.and_neg_one
    · rfl
  by_cases hj : j = i
  · subst hj
    rw [if_pos rfl, getD_of_getElem? h]
    by_cases hxb : x = before.length
    · subst hxb
      simp [getD_eq_getElem?_getD]
    · rw [hother (by omega)]
      simp only [getD_eq_getElem?_getD]
      rcases lt_or_gt_of_ne hxb with hlt | hgt
      · rw [getElem?_append_left hlt, getElem?_append_left hlt]
      · obtain ⟨k, hk⟩ : ∃ k, x - before.length = k + 1 := ⟨x - before.length - 1, by omega⟩
        rw [getElem?_append_right hgt.le, getElem?_append_right hgt.le, hk]
        rfl
  · rw [if_neg hj]
    refine hother (fun heq => hj ?_) _
    have hdiv := congrArg (· / size) heq
    have hpos : 0 < size := lt_of_le_of_lt (zero_le _) hroom
    simpa [mul_comm _ size, mul_add_div hpos, div_eq_of_lt hx, div_eq_of_lt hroom] using hdiv

theorem erase_image (h : sectors[i]? = some s) (hsize : 0 < size) :
    erase size (image size sectors) i = image size (sectors.set i []) := by
  refine flash_ext hsize fun j x hx => ?_
  have hdiv : (j * size + x) / size = j := by
    rw [mul_comm, mul_add_div hsize, div_eq_of_lt hx, add_zero]
  rw [erase, hdiv, image_at _ j hx, image_at _ j hx, getD_set h]
  split <;> simp

theorem image_empty (n : Nat) : image size (replicate n []) = erased := by
  funext a
  have hsector : (replicate n ([] : Bytes)).getD (a / size) [] = [] := by
    rw [getD_eq_getElem?_getD, getElem?_replicate]
    split <;> rfl
  rw [image, hsector]
  rfl

end Sectors

end Qumios.Nor
