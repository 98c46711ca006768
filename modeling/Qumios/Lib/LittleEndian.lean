import Mathlib

/-! Numbers stored in bytes, the low byte first.

A memory gives a byte for each address. What a load finds is settled byte by byte (`load_of_bytes`), so
stores that overlap need no lemma for each way in which they may. -/
namespace Qumios.LittleEndian

abbrev Memory := Nat → UInt8

def byteAt (value place : Nat) : UInt8 := UInt8.ofNat (value / 256 ^ place)

/-- `width` bytes from `addr` on are those of `value`. -/
def store (width : Nat) (m : Memory) (addr value : Nat) : Memory :=
  fun x => if addr ≤ x ∧ x < addr + width then byteAt value (x - addr) else m x

def load : Nat → Memory → Nat → Nat
  | 0, _, _ => 0
  | width + 1, m, addr => (m addr).toNat + 256 * load width m (addr + 1)

variable {width addr value x : Nat}

theorem store_in (m : Memory) (hlow : addr ≤ x) (hhigh : x < addr + width) :
    store width m addr value x = byteAt value (x - addr) :=
  if_pos ⟨hlow, hhigh⟩

theorem store_out (m : Memory) (hout : x < addr ∨ addr + width ≤ x) : store width m addr value x = m x :=
  if_neg (by omega)

theorem byteAt_succ (value place : Nat) : byteAt value (place + 1) = byteAt (value / 256) place := by
  rw [byteAt, byteAt, Nat.pow_succ', Nat.div_div_eq_div_mul]

@[simp] theorem byteAt_toNat (b : UInt8) : byteAt b.toNat 0 = b := by
  rw [byteAt, Nat.pow_zero, Nat.div_one, UInt8.ofNat_toNat]

theorem byteAt_of_lt {place : Nat} (hsmall : value < 256 ^ place) : byteAt value place = 0 := by
  rw [byteAt, Nat.div_eq_of_lt hsmall]
  rfl

theorem load_of_bytes {m : Memory} (hbytes : ∀ k < width, m (addr + k) = byteAt value k) :
    load width m addr = value % 256 ^ width := by
  induction width generalizing addr value with
  | zero => rw [load, Nat.pow_zero, Nat.mod_one]
  | succ width ih =>
    have hfirst : (m addr).toNat = value % 256 := by
      have hbyte := hbytes 0 (Nat.succ_pos width)
      rw [Nat.add_zero] at hbyte
      rw [hbyte, byteAt, Nat.pow_zero, Nat.div_one]
      exact UInt8.toNat_ofNat'
    have hrest : load width m (addr + 1) = value / 256 % 256 ^ width := ih fun k hk => by
      rw [← byteAt_succ, ← hbytes (k + 1) (by omega), Nat.add_assoc, Nat.add_comm 1 k]
    rw [load, hfirst, hrest, Nat.pow_succ', Nat.mod_mul]

end Qumios.LittleEndian
