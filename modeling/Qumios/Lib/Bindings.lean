import Mathlib

/-! Lists of bindings that keep their order.

A new key is bound at the end, a known one in its place (`putEntries`); what a list says of a key is
then a function, and the rules say how a binding changes it. `newest` reads a list in which keys may
come again: the last binding counts. `mergeEntries` puts the bindings of one list into another, each
made of the value it finds there. Elements that have their key in themselves are the bindings
`keyed`. -/
namespace Qumios
open List

section Lookup
variable {κ ν : Type} [DecidableEq κ]

theorem lookup_cons_eq (x : κ × ν) (l : List (κ × ν)) (k : κ) :
    (x :: l).lookup k = if k = x.1 then some x.2 else l.lookup k := by
  obtain ⟨k', v⟩ := x
  by_cases hk : k = k'
  · simp [List.lookup, hk]
  · simp [List.lookup, hk, beq_eq_false_iff_ne.mpr hk]

theorem lookup_eq_none_iff_notMem (l : List (κ × ν)) (k : κ) : l.lookup k = none ↔ k ∉ l.map Prod.fst := by
  induction l with
  | nil => simp
  | cons x rest ih =>
    rw [lookup_cons_eq, map_cons, mem_cons, not_or, ← ih]
    split
    · simp [*]
    · simp [*]

def newest (l : List (κ × ν)) (k : κ) : Option ν := l.reverse.lookup k

@[simp] theorem newest_nil (k : κ) : newest ([] : List (κ × ν)) k = none := rfl

theorem newest_append (a b : List (κ × ν)) (k : κ) : newest (a ++ b) k = (newest b k).or (newest a k) := by
  rw [newest, reverse_append, lookup_append]
  rfl

theorem newest_cons (x : κ × ν) (l : List (κ × ν)) (k : κ) :
    newest (x :: l) k = (newest l k).or (if k = x.1 then some x.2 else none) := by
  rw [← singleton_append, newest_append]
  congr 1
  exact lookup_cons_eq x [] k

variable {l : List (κ × ν)}

def putEntries (k : κ) (v : ν) : List (κ × ν) → List (κ × ν)
  | [] => [(k, v)]
  | x :: rest => if x.1 = k then (k, v) :: rest else x :: putEntries k v rest

theorem keys_putEntries (k : κ) (v : ν) (l : List (κ × ν)) :
    (putEntries k v l).map Prod.fst = if k ∈ l.map Prod.fst then l.map Prod.fst else l.map Prod.fst ++ [k] := by
  induction l with
  | nil => rfl
  | cons x rest ih =>
    rw [putEntries, map_cons]
    by_cases hk : x.1 = k
    · simp [hk]
    · rw [if_neg hk, map_cons, ih]
      by_cases hmem : k ∈ rest.map Prod.fst
      · rw [if_pos hmem, if_pos (mem_cons_of_mem _ hmem)]
      · rw [if_neg hmem, if_neg (by simpa [Ne.symm hk] using hmem), cons_append]

theorem lookup_putEntries (k k' : κ) (v : ν) (l : List (κ × ν)) :
    (putEntries k v l).lookup k' = if k' = k then some v else l.lookup k' := by
  induction l with
  | nil => exact lookup_cons_eq (k, v) [] k'
  | cons x rest ih =>
    rw [putEntries, lookup_cons_eq x]
    by_cases hx : x.1 = k
    · rw [if_pos hx, lookup_cons_eq, hx]
      split <;> rfl
    · rw [if_neg hx, lookup_cons_eq, ih]
      by_cases hk : k' = x.1
      · rw [if_pos hk, if_neg fun h => hx (hk.symm.trans h), if_pos hk]
      · rw [if_neg hk, if_neg hk]

def mergeEntries {ω : Type} (f : Option ν → ω → ν) (l : List (κ × ν)) (s : List (κ × ω)) : List (κ × ν) :=
  s.foldl (fun l x => putEntries x.1 (f (l.lookup x.1) x.2) l) l

/-- The known keys stay where they are, the new ones follow in their order. -/
theorem keys_mergeEntries {ω : Type} (f : Option ν → ω → ν) (l : List (κ × ν)) {s : List (κ × ω)}
    (hs : (s.map Prod.fst).Nodup) : (mergeEntries f l s).map Prod.fst =
      l.map Prod.fst ++ (s.map Prod.fst).filter fun k => k ∉ l.map Prod.fst := by
  induction s generalizing l with
  | nil => simp [mergeEntries]
  | cons x rest ih =>
    rw [map_cons, nodup_cons] at hs
    rw [mergeEntries, foldl_cons, ← mergeEntries, ih _ hs.2, keys_putEntries, map_cons, filter_cons]
    by_cases hx : x.1 ∈ l.map Prod.fst
    · rw [if_pos hx, if_neg (by simpa using hx)]
    · rw [if_neg hx, if_pos (by simpa using hx), append_assoc, singleton_append]
      congr 2
      refine filter_congr fun k hk => ?_
      have hne : k ≠ x.1 := fun h => hs.1 (h ▸ hk)
      simp [hne]

theorem lookup_mergeEntries {ω : Type} (f : Option ν → ω → ν) (l : List (κ × ν)) {s : List (κ × ω)}
    (hs : (s.map Prod.fst).Nodup) (k : κ) : (mergeEntries f l s).lookup k =
      (s.lookup k).elim (l.lookup k) fun w => some (f (l.lookup k) w) := by
  induction s generalizing l with
  | nil => rfl
  | cons x rest ih =>
    rw [map_cons, nodup_cons] at hs
    rw [mergeEntries, foldl_cons, ← mergeEntries, ih _ hs.2, lookup_putEntries, lookup_cons_eq]
    by_cases hk : k = x.1
    · rw [if_pos hk, if_pos hk, hk, (lookup_eq_none_iff_notMem rest x.1).mpr hs.1]
      rfl
    · rw [if_neg hk, if_neg hk]

end Lookup

section Keyed
variable {α κ : Type}

def keyed (key : α → κ) (l : List α) : List (κ × α) := l.map fun x => (key x, x)

theorem keys_keyed (key : α → κ) (l : List α) : (keyed key l).map Prod.fst = l.map key := by
  rw [keyed, map_map]
  rfl

variable [DecidableEq κ] {key : α → κ} {k : κ} {l : List α}

/-- A key is bound to the first element that has it. -/
theorem lookup_keyed_of_findIdx {j : Nat} (h : l.findIdx? (fun x => key x == k) = some j) :
    (keyed key l).lookup k = l[j]? := by
  induction l generalizing j with
  | nil => cases h
  | cons x rest ih =>
    rw [keyed, map_cons, lookup_cons_eq]
    rw [findIdx?_cons] at h
    by_cases hx : key x = k
    · rw [if_pos (beq_iff_eq.mpr hx)] at h
      cases h
      rw [if_pos hx.symm]
      rfl
    · rw [if_neg (by simpa using hx), Option.map_eq_some_iff] at h
      obtain ⟨i, hi, rfl⟩ := h
      rw [if_neg (Ne.symm hx)]
      exact ih hi

variable {x x' : α}

theorem lookup_keyed_eq_some (h : (keyed key l).lookup k = some x) : x ∈ l ∧ key x = k := by
  induction l with
  | nil => cases h
  | cons y rest ih =>
    rw [keyed, map_cons, lookup_cons_eq] at h
    split at h
    · next hk =>
      cases h
      exact ⟨mem_cons_self, hk.symm⟩
    · obtain ⟨hmem, hkey⟩ := ih h
      exact ⟨mem_cons_of_mem _ hmem, hkey⟩

theorem lookup_keyed_of_mem (hl : (l.map key).Nodup) (h : x ∈ l) : (keyed key l).lookup (key x) = some x := by
  induction l with
  | nil => cases h
  | cons y rest ih =>
    rw [map_cons, nodup_cons] at hl
    rw [keyed, map_cons, lookup_cons_eq]
    rcases mem_cons.mp h with rfl | h
    · rw [if_pos rfl]
    · rw [if_neg fun heq => hl.1 (mem_map.mpr ⟨x, h, heq⟩)]
      exact ih hl.2 h

theorem lookup_keyed_map {f : α → α} (hf : ∀ x, key (f x) = key x) (l : List α) (k : κ) :
    (keyed key (l.map f)).lookup k = ((keyed key l).lookup k).map f := by
  induction l with
  | nil => rfl
  | cons x rest ih =>
    rw [map_cons, keyed, map_cons, lookup_cons_eq, keyed, map_cons, lookup_cons_eq, hf]
    split
    · rfl
    · exact ih

/-- An element put in the place of the first one that has its key. -/
theorem putEntries_keyed_of_findIdx {j : Nat} (hkey : key x' = k) (h : l.findIdx? (fun x => key x == k) = some j) :
    putEntries k x' (keyed key l) = keyed key (l.set j x') := by
  induction l generalizing j with
  | nil => cases h
  | cons x rest ih =>
    rw [keyed, map_cons, putEntries]
    rw [findIdx?_cons] at h
    by_cases hx : key x = k
    · rw [if_pos (beq_iff_eq.mpr hx)] at h
      cases h
      rw [if_pos hx, set_cons_zero, keyed, map_cons, hkey]
    · rw [if_neg (by simpa using hx), Option.map_eq_some_iff] at h
      obtain ⟨i, hi, rfl⟩ := h
      rw [if_neg hx, ← keyed, ih hi]
      rfl

theorem putEntries_keyed_of_notMem (hkey : key x' = k) (h : k ∉ l.map key) :
    putEntries k x' (keyed key l) = keyed key (l ++ [x']) := by
  induction l with
  | nil => rw [nil_append, ← hkey]; rfl
  | cons x rest ih =>
    rw [map_cons, mem_cons, not_or] at h
    rw [keyed, map_cons, putEntries, if_neg (Ne.symm h.1), ← keyed, ih h.2]
    rfl

end Keyed

end Qumios
