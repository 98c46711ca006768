import Qumios.Lib.Buffer

/-! Numbers of one or two bytes on a wire, most significant byte first.

`put` keeps what fits; `get` reads a number back and leaves what is behind it, or
fails on a string that is too short. -/
namespace Qumios.Wire

inductive Width where
  | one
  | two
  deriving DecidableEq, Repr

namespace Width

def size : Width → Nat
  | one => 1
  | two => 2

def limit : Width → Nat
  | one => 256
  | two => 65536

def put : Width → Nat → Bytes
  | one, n => [UInt8.ofNat n]
  | two, n => [UInt8.ofNat (n / 256), UInt8.ofNat n]

def get : Width → Bytes → Option (Nat × Bytes)
  | one, b :: rest => some (b.toNat, rest)
  | two, a :: b :: rest => some (a.toNat * 256 + b.toNat, rest)
  | _, _ => none

@[simp] theorem length_put (w : Width) (n : Nat) : (w.put n).length = w.size := by
  cases w <;> rfl

variable {w : Width} {n : Nat} {bytes rest : Bytes}

/-- What fits is read back. -/
@[simp] theorem get_put (h : n < w.limit) (rest : Bytes) : w.get (w.put n ++ rest) = some (n, rest) := by
  cases w with
  | one =>
    have hn : n < 256 := h
    simp [put, get, Nat.mod_eq_of_lt hn]
  | two =>
    have hn : n < 65536 := h
    simp only [put, get, List.cons_append, List.nil_append, UInt8.toNat_ofNat', Option.some.injEq,
      Prod.mk.injEq, and_true]
    omega

/-- A number that was read fits. -/
theorem get_lt (h : w.get bytes = some (n, rest)) : n < w.limit := by
  cases w with
  | one =>
    cases bytes with
    | nil => cases h
    | cons b bytes =>
      cases h
      exact b.toNat_lt
  | two =>
    rcases bytes with - | ⟨a, - | ⟨b, bytes⟩⟩
    · cases h
    · cases h
    · cases h
      have ha := a.toNat_lt
      have hb := b.toNat_lt
      show a.toNat * 256 + b.toNat < 65536
      omega

/-- A number that was read stands in front of the rest. -/
theorem put_of_get (h : w.get bytes = some (n, rest)) : bytes = w.put n ++ rest := by
  cases w with
  | one =>
    cases bytes with
    | nil => cases h
    | cons b bytes =>
      cases h
      simp [put]
  | two =>
    rcases bytes with - | ⟨a, - | ⟨b, bytes⟩⟩
    · cases h
    · cases h
    · cases h
      have hb := b.toNat_lt
      have hhigh : (a.toNat * 256 + b.toNat) / 256 = a.toNat := by omega
      have hlow : UInt8.ofNat (a.toNat * 256 + b.toNat) = b := by
        apply UInt8.toNat_inj.mp
        rw [UInt8.toNat_ofNat']
        omega
      simp [put, hhigh, hlow]

end Width

end Qumios.Wire
