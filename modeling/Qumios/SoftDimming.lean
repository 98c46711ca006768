import Qumios.Lib.Buffer

/-! Soft dimming: the integer square root its step counts are made of.

`_int_sqrt` is Newton's iteration, stopped when the estimate no longer falls. Every estimate behind the
first is at least the root, so the last one is the root (`intSqrt_exact`). At the top of the range the
first estimate wraps to 0 and is divided by. -/
namespace Qumios.SoftDimming

/-- How a loop comes out. -/
inductive Outcome where
  | returned (r : Nat)
  | dividedByZero
  | running
  deriving DecidableEq, Repr

/-- The loop of `_int_sqrt`, at most `rounds` times around. -/
def sqrtLoop (n : Nat) : Nat → Nat → Nat → Outcome
  | 0, _, _ => .running
  | rounds + 1, x, y =>
    if y < x then
      if y = 0 then .dividedByZero else sqrtLoop n rounds y (u32 (y + n / y) / 2)
    else .returned x

/-- `_int_sqrt`. -/
def intSqrt (rounds n : Nat) : Outcome :=
  if n < 2 then .returned n else sqrtLoop n rounds n (u32 (n + 1) / 2)

/-- An estimate that is not too small makes one that is not too small. -/
theorem newton_lt {n x : Nat} (hx : 0 < x) : n < ((x + n / x) / 2 + 1) * ((x + n / x) / 2 + 1) := by
  have hn : n < x * (n / x + 1) := Nat.lt_mul_div_succ n hx
  have hhalf : x + (n / x + 1) ≤ 2 * ((x + n / x) / 2 + 1) := by omega
  generalize (x + n / x) / 2 + 1 = s at hhalf ⊢
  generalize n / x + 1 = q at hn hhalf
  -- the mean of two numbers squared is at least their product
  have hsquare : (x + q) * (x + q) ≤ 2 * s * (2 * s) := Nat.mul_le_mul hhalf hhalf
  zify at hn hsquare ⊢
  nlinarith [sq_nonneg ((x : Int) - q)]

/-- No sum of the iteration leaves 32 bits. -/
theorem newton_fits {n x : Nat} (hn : n < 2 ^ 32 - 1) (hx : 0 < x) (hle : x ≤ n) : u32 (x + n / x) = x + n / x := by
  have hq : 0 < n / x := Nat.div_pos hle hx
  have hprod : x * (n / x) ≤ n := Nat.mul_div_le n x
  have hsum : x + n / x ≤ x * (n / x) + 1 := by
    generalize n / x = q at hq
    nlinarith
  exact Nat.mod_eq_of_lt (by omega)

theorem sqrtLoop_exact {n : Nat} (hn : n < 2 ^ 32 - 1) {rounds x : Nat} (hx : 0 < x) (hle : x ≤ n)
    (hlt : n < (x + 1) * (x + 1)) (hrounds : x < rounds) :
    ∃ r, sqrtLoop n rounds x ((x + n / x) / 2) = .returned r ∧ r * r ≤ n ∧ n < (r + 1) * (r + 1) := by
  induction rounds generalizing x with
  | zero => omega
  | succ rounds ih =>
    have hq : 0 < n / x := Nat.div_pos hle hx
    rw [sqrtLoop]
    by_cases hless : (x + n / x) / 2 < x
    · rw [if_pos hless, if_neg (by omega), newton_fits hn (by omega) (by omega)]
      exact ih (by omega) (by omega) (newton_lt hx) (by omega)
    · rw [if_neg hless]
      exact ⟨x, rfl, (Nat.le_div_iff_mul_le hx).mp (by omega), hlt⟩

/-- **`_int_sqrt` is the integer square root**, for every 32-bit number but the largest: it returns, without
a division by zero. -/
theorem intSqrt_exact (n : Nat) (hn : n < 2 ^ 32 - 1) :
    ∃ r, intSqrt (n + 1) n = .returned r ∧ r * r ≤ n ∧ n < (r + 1) * (r + 1) := by
  rw [intSqrt]
  split_ifs with hsmall
  · refine ⟨n, rfl, ?_, ?_⟩ <;> interval_cases n <;> decide
  · have hfirst : u32 (n + 1) / 2 = (n + n / n) / 2 := by
      rw [u32, Nat.mod_eq_of_lt (by omega), Nat.div_self (by omega)]
    rw [hfirst]
    exact sqrtLoop_exact hn (by omega) le_rfl (by nlinarith) (Nat.lt_succ_self n)

theorem intSqrt_exact_hundred : ∃ r, intSqrt 101 100 = .returned r ∧ r * r ≤ 100 ∧ 100 < (r + 1) * (r + 1) :=
  intSqrt_exact 100 (by decide)

/-- At the top of the range the first estimate is 0. -/
theorem intSqrt_divides : intSqrt 1 (2 ^ 32 - 1) = .dividedByZero := by decide

end Qumios.SoftDimming
