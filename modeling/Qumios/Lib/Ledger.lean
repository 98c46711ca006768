import Mathlib

/-! A ledger of the blocks of a heap.

A block gets a number that no block had before. To free what is not live is a fault, so where a run comes
through, no block was freed twice; a block that was allocated in the run and is not live at its end was freed
once. -/
namespace Qumios
open List

/-- The live blocks with their contents, and the number of the next one. -/
structure Ledger (α : Type) where
  next : Nat
  live : List (Nat × α)
  below : ∀ block ∈ live, block.1 < next
  nodup : (live.map Prod.fst).Nodup

namespace Ledger

variable {α : Type}

def empty : Ledger α := ⟨0, [], by simp, by simp⟩

def malloc (l : Ledger α) (content : α) : Ledger α where
  next := l.next + 1
  live := (l.next, content) :: l.live
  below block hblock := by
    rcases List.mem_cons.mp hblock with rfl | hold
    · exact Nat.lt_succ_self _
    · exact Nat.lt_succ_of_lt (l.below block hold)
  nodup := by
    refine List.nodup_cons.mpr ⟨fun hmem => ?_, l.nodup⟩
    obtain ⟨block, hblock, hnumber⟩ := List.mem_map.mp hmem
    exact absurd (l.below block hblock) (by omega)

def read (l : Ledger α) (number : Nat) : Option α := (l.live.find? fun block => block.1 = number).map Prod.snd

def drop (l : Ledger α) (number : Nat) : Ledger α where
  next := l.next
  live := l.live.filter fun block => block.1 ≠ number
  below block hblock := l.below block (List.mem_of_mem_filter hblock)
  nodup := l.nodup.sublist (List.filter_sublist.map _)

def free (l : Ledger α) (number : Nat) : Option (Ledger α) :=
  if (l.read number).isSome then some (l.drop number) else none

variable (l : Ledger α) (content : α) (number : Nat)

@[simp] theorem malloc_live : (l.malloc content).live = (l.next, content) :: l.live := rfl

@[simp] theorem drop_live :
    (l.drop number).live = l.live.filter fun block => block.1 ≠ number := rfl

theorem read_next : l.read l.next = none := by
  have hnone : l.live.find? (fun block => block.1 = l.next) = none :=
    find?_eq_none.mpr fun block hblock hsame =>
      absurd (l.below block hblock) (by rw [of_decide_eq_true hsame]; exact Nat.lt_irrefl _)
  rw [read, hnone]
  rfl

theorem read_malloc : (l.malloc content).read number = if l.next = number then some content else l.read number := by
  rw [read, malloc_live, find?_cons]
  by_cases h : l.next = number
  · simp [h]
  · simp [h, read]

theorem read_drop (dropped number : Nat) :
    (l.drop dropped).read number = if number = dropped then none else l.read number := by
  rw [read, drop_live, find?_filter]
  by_cases h : number = dropped
  · rw [if_pos h, find?_eq_none.mpr fun block _ hboth => by simp_all]
    rfl
  · rw [if_neg h, read]
    congr 2
    funext block
    by_cases hsame : block.1 = number
    · simp [hsame, h]
    · simp [hsame]

theorem free_of_read {l : Ledger α} {number : Nat} {content : α} (h : l.read number = some content) :
    l.free number = some (l.drop number) := by
  rw [free, h]
  rfl

theorem free_head {l : Ledger α} {number : Nat} {content : α} {rest : List (Nat × α)}
    (hlive : l.live = (number, content) :: rest) : ∃ l', l.free number = some l' ∧ l'.live = rest := by
  have hread : l.read number = some content := by simp [read, hlive]
  have hnodup := l.nodup
  rw [hlive, map_cons, nodup_cons] at hnodup
  refine ⟨l.drop number, free_of_read hread, ?_⟩
  rw [drop_live, hlive, filter_cons_of_neg (by simp)]
  refine filter_eq_self.mpr fun block hblock => ?_
  have hother : block.1 ≠ number := fun hsame => hnodup.1 (mem_map.mpr ⟨block, hblock, hsame⟩)
  exact decide_eq_true hother

end Ledger

end Qumios
