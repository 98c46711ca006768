import Mathlib

/-! Cells in a ring.

`read` and `write` go from a cell on around the ring; `Holds cells i data` says that
the data lies in the ring from cell `i` on. What is held can be read, its front can be
left behind, and as long as the ring has room more can be written behind it. -/
namespace Qumios.RingBuffer
open List Nat
variable {α : Type}

/-- So many cells, from cell `i` on. -/
def read (cells : List α) : Nat → Nat → List α
  | _, 0 => []
  | i, n + 1 =>
    match cells[i]? with
    | some x => x :: read cells ((i + 1) % cells.length) n
    | none => []

/-- Writes the data from cell `i` on. -/
def write (cells : List α) : Nat → List α → List α
  | _, [] => cells
  | i, x :: rest => write (cells.set i x) ((i + 1) % cells.length) rest

@[simp] theorem length_write (cells : List α) (i : Nat) (data : List α) :
    (write cells i data).length = cells.length := by
  induction data generalizing cells i with
  | nil => rfl
  | cons x rest ih => rw [write, ih, length_set]

structure Holds (cells : List α) (i : Nat) (data : List α) : Prop where
  start : i < cells.length
  fits : data.length ≤ cells.length
  lies : ∀ k, k < data.length → cells[(i + k) % cells.length]? = data[k]?

section Holds
variable {cells : List α} {i : Nat} {a b : List α}

theorem Holds.nil (h : i < cells.length) : Holds cells i ([] : List α) :=
  ⟨h, zero_le _, fun _ hk => absurd hk (not_lt_zero _)⟩

theorem Holds.front {x : α} (h : Holds cells i (x :: a)) : cells[i]? = some x := by
  have hx := h.lies 0 (succ_pos _)
  rwa [add_zero, mod_eq_of_lt h.start, getElem?_cons_zero] at hx

theorem Holds.tail {x : α} (h : Holds cells i (x :: a)) : Holds cells ((i + 1) % cells.length) a := by
  refine ⟨mod_lt _ (zero_lt_of_lt h.start), le_of_succ_le h.fits, fun k hk => ?_⟩
  have hx := h.lies (k + 1) (succ_lt_succ hk)
  rwa [getElem?_cons_succ, ← add_assoc, add_right_comm, ← mod_add_mod] at hx

theorem Holds.drop (h : Holds cells i (a ++ b)) : Holds cells ((i + a.length) % cells.length) b := by
  induction a generalizing i with
  | nil => rwa [length_nil, add_zero, mod_eq_of_lt h.start]
  | cons x rest ih =>
    have hrest := ih h.tail
    rwa [mod_add_mod, add_assoc, add_comm 1] at hrest

theorem Holds.read (h : Holds cells i (a ++ b)) : read cells i a.length = a := by
  induction a generalizing i with
  | nil => rfl
  | cons x rest ih =>
    rw [length_cons, RingBuffer.read, h.front]
    exact congrArg (x :: ·) (ih h.tail)

/-- One more cell behind what is held. -/
theorem Holds.snoc (h : Holds cells i a) (hroom : a.length < cells.length) (x : α) :
    Holds (cells.set ((i + a.length) % cells.length) x) i (a ++ [x]) := by
  have hpos : 0 < cells.length := zero_lt_of_lt h.start
  refine ⟨by rw [length_set]; exact h.start, by simp only [length_append, length_set]; exact hroom, ?_⟩
  intro k hk
  rw [length_append, length_singleton] at hk
  rw [length_set]
  by_cases hlast : k = a.length
  · rw [hlast, getElem?_set_self (mod_lt _ hpos), getElem?_concat_length]
  · have hk' : k < a.length := by omega
    -- Less than one turn apart, the two cells differ.
    have hne : (i + a.length) % cells.length ≠ (i + k) % cells.length := by
      intro heq
      have hmod := Nat.ModEq.add_left_cancel' i heq
      rw [Nat.ModEq, mod_eq_of_lt hroom, mod_eq_of_lt (lt_trans hk' hroom)] at hmod
      exact hlast hmod.symm
    rw [getElem?_set_ne hne, h.lies k hk', getElem?_append_left hk']

theorem Holds.write (h : Holds cells i a) (hroom : a.length + b.length ≤ cells.length) :
    Holds (write cells ((i + a.length) % cells.length) b) i (a ++ b) := by
  induction b generalizing cells a with
  | nil => rwa [append_nil]
  | cons x rest ih =>
    rw [length_cons] at hroom
    have hnext := ih (h.snoc (by omega) x) (by simp only [length_append, length_set, length_singleton]; omega)
    rw [length_append, length_singleton, length_set, append_assoc] at hnext
    rw [RingBuffer.write, mod_add_mod, add_assoc]
    exact hnext

end Holds

theorem distance {size i n : Nat} (hi : i < size) (hn : n < size) : ((i + n) % size + size - i) % size = n := by
  have hpush : (i + n) % size + size - i = n ∨ (i + n) % size + size - i = n + size := by
    rcases lt_or_ge (i + n) size with hlt | hge
    · rw [mod_eq_of_lt hlt]
      omega
    · rw [mod_eq_sub_mod hge, mod_eq_of_lt (by omega)]
      omega
  rcases hpush with h | h
  · rw [h, mod_eq_of_lt hn]
  · rw [h, add_mod_right, mod_eq_of_lt hn]

end Qumios.RingBuffer
