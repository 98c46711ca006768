import Mathlib

/-! Byte strings, words of 32 bits and copies into a buffer.

`splice buf off data` is `memcpy(buf + off, data, data.length)`: the buffer keeps
its length as long as the copy stays inside it. -/
namespace Qumios
open List

abbrev Bytes := List UInt8

/-- What a `uint32_t` keeps. -/
def u32 (n : Nat) : Nat := n % 2 ^ 32

theorem u32_of_lt {n : Nat} (h : n < 2 ^ 32) : u32 n = n := Nat.mod_eq_of_lt h

namespace Buffer

/-- `memcpy(buf + off, data, data.length)`. -/
def splice (buf : Bytes) (off : Nat) (data : Bytes) : Bytes :=
  buf.take off ++ data ++ buf.drop (off + data.length)

variable (buf : Bytes) (off : Nat) (data : Bytes)

theorem length_splice (h : off + data.length ≤ buf.length) : (splice buf off data).length = buf.length := by
  simp only [splice, length_append, length_take, length_drop]
  omega

theorem take_splice (h : off ≤ buf.length) :
    (splice buf off data).take (off + data.length) = buf.take off ++ data := by
  have hlen : (buf.take off ++ data).length = off + data.length := by
    simp [Nat.min_eq_left h]
  rw [splice, ← hlen, take_left']
  rfl

@[simp] theorem splice_nil : splice buf off [] = buf := by
  simp [splice]

theorem splice_append (pre tail : Bytes) (off : Nat) (data : Bytes) :
    splice (pre ++ tail) (pre.length + off) data = pre ++ splice tail off data := by
  simp only [splice, take_length_add_append, Nat.add_assoc, drop_length_add_append, append_assoc]

theorem splice_splice (a b : Bytes) (h : off ≤ buf.length) :
    splice (splice buf off a) (off + a.length) b = splice buf off (a ++ b) := by
  have hlen : (buf.take off ++ a).length = off + a.length := by simp [Nat.min_eq_left h]
  have hdrop : (splice buf off a).drop (off + a.length + b.length) = buf.drop (off + a.length + b.length) := by
    rw [splice, ← drop_drop, ← hlen, drop_left, hlen, drop_drop]
  rw [splice, take_splice buf off a h, hdrop, splice]
  simp [Nat.add_assoc]

end Buffer

end Qumios
