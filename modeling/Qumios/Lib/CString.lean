import Mathlib

/-! Texts in zeroed buffers.

A buffer that was cleared and then written from its start holds a text without zeros and zeros behind it. As long as one
zero is left, whoever reads the buffer as a string stays inside it and reads that text. -/
namespace Qumios.CString
open List

def text (buf : List UInt8) : List UInt8 := buf.takeWhile (· ≠ 0)

/-- A text and as many zeros. -/
structure Filled (buf line : List UInt8) (room : Nat) : Prop where
  eq : buf = line ++ List.replicate room 0
  nonzero : 0 ∉ line

theorem filled_zeros (n : Nat) : Filled (replicate n 0) [] n := ⟨rfl, not_mem_nil⟩

namespace Filled

variable {buf line : List UInt8} {room : Nat}

section
variable (h : Filled buf line room)
include h

theorem length : buf.length = line.length + room := by
  rw [h.eq, length_append, length_replicate]

theorem take : buf.take line.length = line := by
  rw [h.eq, take_left]

theorem terminated_iff : 0 ∈ buf ↔ 0 < room := by
  rw [h.eq, mem_append, mem_replicate]
  exact ⟨fun hmem => Nat.pos_of_ne_zero (hmem.resolve_left h.nonzero).1, fun hpos => .inr ⟨Nat.ne_of_gt hpos, rfl⟩⟩

theorem text_eq : text buf = line := by
  have hline : line.takeWhile (· ≠ 0) = line :=
    takeWhile_eq_self_iff.mpr fun c hc => decide_eq_true fun hzero => h.nonzero (hzero ▸ hc)
  rw [text, h.eq, takeWhile_append, if_pos (by rw [hline])]
  cases room with
  | zero => simp
  | succ room => simp [replicate_succ]
end

theorem push (h : Filled buf line (room + 1)) {c : UInt8} (hc : c ≠ 0) :
    Filled (buf.set line.length c) (line ++ [c]) room := by
  refine ⟨?_, fun hmem => ?_⟩
  · rw [h.eq, set_append_right _ _ (Nat.le_refl _), Nat.sub_self, replicate_succ, set_cons_zero,
      append_assoc]
    rfl
  · rcases mem_append.mp hmem with hmem | hmem
    · exact h.nonzero hmem
    · exact hc (mem_singleton.mp hmem).symm

theorem pop {c : UInt8} (h : Filled buf (line ++ [c]) room) : Filled (buf.set line.length 0) line (room + 1) := by
  refine ⟨?_, fun hmem => h.nonzero (mem_append_left _ hmem)⟩
  rw [h.eq, append_assoc, set_append_right _ _ (Nat.le_refl _), Nat.sub_self, singleton_append,
    set_cons_zero, replicate_succ]

end Filled

end Qumios.CString
