import Mathlib

/-! How long the MQTT client waits before it tries to connect again.

`retry_interval_ms_get` compares the interval with the maximum before it doubles it. The waiting times
stay at or below the maximum, and never fall, where doubling the minimum hits the maximum. -/
namespace Qumios.Mqtt.Backoff

/-- The fields of `qm_iot_mqtt_ctx_t`. -/
structure Interval where
  intervalMs : Int
  intervalMaxMs : Int
  deriving DecidableEq, Repr

/-- `retry_interval_ms_set`. -/
def retryIntervalMsSet (intervalMs intervalMaxMs : Int) : Interval := ⟨intervalMs, intervalMaxMs⟩

/-- `retry_interval_ms_get`, which returns the new `interval_ms`. -/
def retryIntervalMsGet (t : Interval) : Interval :=
  if t.intervalMaxMs > t.intervalMs then { t with intervalMs := t.intervalMs * 2 }
  else { t with intervalMs := t.intervalMaxMs }

/-- How long `qm_iot_mqtt_process` waits when `n` attempts have failed before this one. -/
def wait (least most : Int) (n : Nat) : Int := (retryIntervalMsGet^[n + 1] (retryIntervalMsSet least most)).intervalMs

theorem iterate_get {least : Int} (hpos : 0 < least) (k n : Nat) :
    retryIntervalMsGet^[n] (retryIntervalMsSet least (least * 2 ^ k)) = ⟨least * 2 ^ min n k, least * 2 ^ k⟩ := by
  induction n with
  | zero => simp [retryIntervalMsSet]
  | succ n ih =>
    rw [Function.iterate_succ_apply', ih, retryIntervalMsGet]
    dsimp only
    rcases Nat.lt_or_ge n k with hlt | hge
    · have hless : least * 2 ^ n < least * 2 ^ k :=
        Int.mul_lt_mul_of_pos_left (pow_lt_pow_right₀ (by decide) hlt) hpos
      rw [Nat.min_eq_left hlt.le, if_pos hless, Nat.min_eq_left hlt, pow_succ, mul_assoc]
    · rw [Nat.min_eq_right hge, if_neg (lt_irrefl _), Nat.min_eq_right (by omega)]

/-- As long as no wait is longer than the maximum, the interval is the minimum doubled, or the maximum was
hit on the way. -/
theorem iterate_doubled {least most : Int} (hle : least ≤ most) (hbounded : ∀ n, wait least most n ≤ most) (n : Nat) :
    (∃ k : Nat, retryIntervalMsGet^[n] (retryIntervalMsSet least most) = ⟨least * 2 ^ k, most⟩) ∨
      ∃ k : Nat, most = least * 2 ^ k := by
  induction n with
  | zero => exact .inl ⟨0, by simp [retryIntervalMsSet]⟩
  | succ n ih =>
    refine ih.elim (fun ⟨k, hk⟩ => ?_) .inr
    rcases lt_or_ge (least * 2 ^ k) most with hlt | hge
    · refine .inl ⟨k + 1, ?_⟩
      rw [Function.iterate_succ_apply', hk, retryIntervalMsGet, if_pos hlt, pow_succ, mul_assoc]
    · refine .inr ⟨k, le_antisymm hge ?_⟩
      cases n with
      | zero =>
        have hfirst : least = least * 2 ^ k := congrArg Interval.intervalMs hk
        exact hfirst ▸ hle
      | succ n =>
        have hlast := hbounded n
        rwa [wait, hk] at hlast

/-- **The waiting times are bounded, never fall and come to the maximum** exactly where the maximum is the
minimum doubled some number of times. -/
theorem wait_bounded (least most : Int) (hpos : 0 < least) (hle : least ≤ most) :
    ((∀ n, wait least most n ≤ most) ∧ (∀ n, wait least most n ≤ wait least most (n + 1)) ∧
      ∃ first, ∀ n ≥ first, wait least most n = most) ↔ ∃ k : Nat, most = least * 2 ^ k := by
  constructor
  · rintro ⟨hbounded, -, first, hfirst⟩
    refine (iterate_doubled hle hbounded (first + 1)).elim (fun ⟨k, hk⟩ => ⟨k, ?_⟩) id
    rw [← hfirst first le_rfl, wait, hk]
  · rintro ⟨k, rfl⟩
    have hwait (n : Nat) : wait least (least * 2 ^ k) n = least * 2 ^ min (n + 1) k := by
      rw [wait, iterate_get hpos]
    have hmono {a b : Nat} (hab : a ≤ b) : least * 2 ^ a ≤ least * 2 ^ b :=
      Int.mul_le_mul_of_nonneg_left (pow_le_pow_right₀ (by decide) hab) hpos.le
    refine ⟨fun n => ?_, fun n => ?_, k, fun n hn => ?_⟩
    · rw [hwait]
      exact hmono (Nat.min_le_right ..)
    · rw [hwait, hwait]
      exact hmono (by omega)
    · rw [hwait, Nat.min_eq_right (by omega)]

theorem wait_bounded_thrice : wait 500 4000 3 ≤ 4000 :=
  ((wait_bounded 500 4000 (by decide) (by decide)).mpr ⟨3, by decide⟩).1 3

/-- With the intervals of the default configuration the fourth wait is longer than the maximum, and the
next one shorter. -/
theorem wait_exceeds : wait 500 5000 3 = 8000 ∧ wait 500 5000 4 = 5000 := by decide

end Qumios.Mqtt.Backoff
