import Qumios.Lib.Buffer

/-! Step dimming: a value taken from `start` to `end` in a number of calls.

`qm_step_delta_get_next` reads the curve at the progress made, in Q14, and carries what the
whole part leaves over to the next call. A run that rises stays between its ends, and what
it has put out differs from the exact curve by the carried error only (`rising_range`,
`diffusion`). On a run that falls the shift rounds down but the remainder is the one of a
division that rounds towards zero: each fraction is counted twice, and the value drops
below `end` where one more is taken off a whole part that has arrived (`Undershoots`). -/
namespace Qumios.StepDelta

inductive Curve where
  | linear
  | square
  | cubic
  | hybrid
  | s
  | smootherstep
  deriving DecidableEq, Repr

/-- `qm_step_delta_t`. -/
structure State where
  start : Int
  finish : Int
  steps : Nat
  currentStep : Nat
  curve : Curve
  errorAcc : Int
  deriving DecidableEq, Repr

/-- `qm_step_delta_init`. -/
def init (start finish stepCnt : Int) (curve : Curve) : State :=
  let steps := if stepCnt ≤ 0 then 1 else stepCnt.toNat
  ⟨start, finish, steps, if start = finish then steps else 1, curve, 0⟩

/-- `curve_q14` for the progress `t`. -/
def curveQ14 (curve : Curve) (t : Nat) : Nat :=
  match curve with
  | .smootherstep =>
    let term1 := u32 (u32 (6 * t) * t)
    let term2 := u32 (u32 (15 * t) * 2 ^ 14)
    let sum := u32 (term1 + 10 * 2 ^ 28)
    let polyQ14 := (if term2 < sum then sum - term2 else 0) / 2 ^ 14
    let t3 := u32 (u32 (t * t) / 2 ^ 14 * t) / 2 ^ 14
    u32 (t3 * polyQ14) / 2 ^ 14
  | .square => u32 (t * t) / 2 ^ 14
  | .cubic => u32 (u32 (t * t) / 2 ^ 14 * t) / 2 ^ 14
  | .linear | .hybrid | .s => t

/-- The products, shifts and sums `curveQ14` keeps in 32 bits, before they are cut. -/
def curveProducts (curve : Curve) (t : Nat) : List Nat :=
  let t2 := u32 (t * t) / 2 ^ 14
  match curve with
  | .smootherstep =>
    let term1 := u32 (6 * t) * t
    let term2 := u32 (15 * t) * 2 ^ 14
    let sum := u32 term1 + 10 * 2 ^ 28
    let polyQ14 := (if u32 term2 < u32 sum then u32 sum - u32 term2 else 0) / 2 ^ 14
    [6 * t, term1, 15 * t, term2, sum, t * t, t2 * t, u32 (t2 * t) / 2 ^ 14 * polyQ14]
  | .square => [t * t]
  | .cubic => [t * t, t2 * t]
  | .linear | .hybrid | .s => []

namespace State

/-- `t`. -/
def progress (s : State) : Nat := u32 (s.currentStep * 16384) / s.steps

/-- `delta_q14`. -/
def delta (s : State) : Int := (s.finish - s.start) * curveQ14 s.curve s.progress

/-- No product of the call leaves its 32 bits. -/
def NoOverflow (s : State) : Prop :=
  s.currentStep * 16384 < 2 ^ 32 ∧ (∀ p ∈ curveProducts s.curve s.progress, p < 2 ^ 32) ∧
    -2 ^ 31 ≤ s.delta ∧ s.delta < 2 ^ 31

/-- The call spreads its error. -/
def Dithered (s : State) : Prop := s.currentStep + 1 < s.steps

instance (s : State) : Decidable s.Dithered := inferInstanceAs (Decidable (_ < _))

/-- `integer_part` and `error_acc` behind the dithering. The shift rounds down, `%` towards zero. -/
def dither (s : State) : Int × Int :=
  let whole := s.delta / 16384
  if s.Dithered then
    let acc := s.errorAcc + s.delta.tmod 16384
    if 16384 ≤ acc then (whole + 1, acc - 16384)
    else if acc ≤ -16384 then (whole - 1, acc + 16384)
    else (whole, acc)
  else (whole, 0)

end State

def clamp (value : Int) : Int := if value > 65535 then 65535 else if value < 0 then 0 else value

/-- `qm_step_delta_get_next`. -/
def getNext (s : State) : State × Int :=
  if s.steps ≤ s.currentStep then (s, s.finish)
  else ({ s with currentStep := s.currentStep + 1, errorAcc := s.dither.2 }, clamp (s.start + s.dither.1))

/-- The state behind `n` calls. -/
def calls (s : State) : Nat → State
  | 0 => s
  | n + 1 => (getNext (calls s n)).1

/-- What the call behind `n` others returns. -/
def output (s : State) (n : Nat) : Int := (getNext (calls s n)).2

/-! ### The curves -/

variable {n t : Nat} {s : State} {start finish stepCnt : Int}

/-- Short of its end, smootherstep is short of one: `(1 - t)³(6t² + 3t + 1)` is what is missing. -/
theorem smoother_lt {one t3 p : Nat} (ht : t < one) (h3 : t3 * one ^ 2 ≤ t ^ 3)
    (hp : p * one + 15 * t * one ≤ 6 * t ^ 2 + 10 * one ^ 2) : t3 * p < one ^ 2 := by
  obtain ⟨d, rfl⟩ : ∃ d, one = t + d := ⟨one - t, by omega⟩
  have hpos : 0 < d := by omega
  have hpoly : p * (t + d) ≤ t ^ 2 + 5 * t * d + 10 * d ^ 2 := by linarith
  have hmul : t3 * p * (t + d) ^ 3 < (t + d) ^ 2 * (t + d) ^ 3 := by
    calc t3 * p * (t + d) ^ 3 = t3 * (t + d) ^ 2 * (p * (t + d)) := by ring
      _ ≤ t ^ 3 * (t ^ 2 + 5 * t * d + 10 * d ^ 2) := Nat.mul_le_mul h3 hpoly
      _ < t ^ 3 * (t ^ 2 + 5 * t * d + 10 * d ^ 2) + d ^ 3 * (10 * t ^ 2 + 5 * t * d + d ^ 2) :=
        Nat.lt_add_of_pos_right (by positivity)
      _ = (t + d) ^ 2 * (t + d) ^ 3 := by ring
  exact Nat.lt_of_mul_lt_mul_right hmul

/-- A square and a cube in Q14 lose ground. -/
theorem square_le (ht : t < 16384) : t * t / 16384 ≤ t ∧ t * t < 2 ^ 28 := by
  have : t * t ≤ t * 16384 := Nat.mul_le_mul_left t (by omega)
  omega

theorem cube_le (ht : t < 16384) : t * t / 16384 * t / 16384 ≤ t ∧ t * t / 16384 * t < 2 ^ 28 := by
  have hle := Nat.mul_le_mul_right t (square_le ht).1
  have := square_le ht
  omega

theorem cube_scaled (t : Nat) : t * t / 16384 * t / 16384 * 16384 ^ 2 ≤ t ^ 3 :=
  calc t * t / 16384 * t / 16384 * 16384 ^ 2 = t * t / 16384 * t / 16384 * 16384 * 16384 := by ring
    _ ≤ t * t / 16384 * t * 16384 := Nat.mul_le_mul_right _ (Nat.div_mul_le_self _ _)
    _ = t * t / 16384 * 16384 * t := by ring
    _ ≤ t * t * t := Nat.mul_le_mul_right _ (Nat.div_mul_le_self _ _)
    _ = t ^ 3 := by ring

/-- Short of the end no curve overflows, and none has arrived. -/
theorem curve_bounds (curve : Curve) (ht : t < 16384) :
    (∀ p ∈ curveProducts curve t, p < 2 ^ 32) ∧ curveQ14 curve t < 16384 := by
  obtain ⟨hsq, hsq'⟩ := square_le ht
  obtain ⟨hcu, hcu'⟩ := cube_le ht
  have u2 : u32 (t * t) = t * t := u32_of_lt (by omega)
  have u3 : u32 (t * t / 16384 * t) = t * t / 16384 * t := u32_of_lt (by omega)
  cases curve with
  | linear | hybrid | s => simp [curveProducts, curveQ14, ht]
  | square =>
    simp only [curveProducts, curveQ14, u2, List.forall_mem_singleton]
    omega
  | cubic =>
    simp only [curveProducts, curveQ14, Nat.reducePow, u2, u3, List.mem_cons, List.not_mem_nil, or_false,
      forall_eq_or_imp, forall_eq]
    omega
  | smootherstep =>
    have u6 : u32 (6 * t) = 6 * t := u32_of_lt (by omega)
    have u15 : u32 (15 * t) = 15 * t := u32_of_lt (by omega)
    have ht2 : 6 * t * t = 6 * (t * t) := by ring
    have hsq2 : t * t ≤ 16383 * 16383 := Nat.mul_le_mul (by omega) (by omega)
    have u66 : u32 (6 * (t * t)) = 6 * (t * t) := u32_of_lt (by omega)
    have u1514 : u32 (15 * t * 16384) = 15 * t * 16384 := u32_of_lt (by omega)
    have usum : u32 (6 * (t * t) + 10 * 268435456) = 6 * (t * t) + 10 * 268435456 := u32_of_lt (by omega)
    generalize hp : (if 15 * t * 16384 < 6 * (t * t) + 10 * 268435456 then
      6 * (t * t) + 10 * 268435456 - 15 * t * 16384 else 0) / 16384 = p
    have hpoly : p * 16384 + 15 * t * 16384 ≤ 6 * t ^ 2 + 10 * 16384 ^ 2 := by
      have hpos : 15 * t * 16384 < 6 * (t * t) + 10 * 268435456 := by
        zify
        nlinarith [sq_nonneg (4 * (t : Int) - 5 * 16384)]
      rw [if_pos hpos] at hp
      rw [pow_two]
      omega
    have hlast := smoother_lt ht (cube_scaled t) hpoly
    have ulast : u32 (t * t / 16384 * t / 16384 * p) = t * t / 16384 * t / 16384 * p := u32_of_lt (by omega)
    simp only [curveProducts, curveQ14, Nat.reducePow, u2, u3, u6, u15, u66, u1514, usum, hp, ulast, ht2,
      List.mem_cons, List.not_mem_nil, or_false, forall_eq_or_imp, forall_eq]
    omega

/-! ### Rising and falling runs -/

namespace State

/-- What a call does not reach: the parameters, and what it may read. -/
structure Valid (s : State) : Prop where
  start : 0 ≤ s.start ∧ s.start ≤ 65535
  finish : 0 ≤ s.finish ∧ s.finish ≤ 65535
  steps : s.steps ≤ 262143
  pos : 0 < s.steps
  reached : s.currentStep ≤ s.steps

/-- The carried error of a run that rises is a fraction. -/
structure Rising (s : State) : Prop extends s.Valid where
  rises : s.start ≤ s.finish
  acc : 0 ≤ s.errorAcc ∧ s.errorAcc < 16384

/-- The carried error of a run that falls is a negative fraction. -/
structure Falling (s : State) : Prop extends s.Valid where
  falls : s.finish < s.start
  acc : -16384 < s.errorAcc ∧ s.errorAcc ≤ 0

/-- The call takes one more off a whole part that has arrived at the end. -/
def Undershoots (s : State) : Prop :=
  s.currentStep < s.steps ∧ s.Dithered ∧ s.errorAcc + s.delta.tmod 16384 ≤ -16384 ∧ s.delta / 16384 = s.finish - s.start

instance (s : State) : Decidable s.Undershoots := inferInstanceAs (Decidable (_ ∧ _))

/-- Whether the offset of the call has a fraction. -/
def fraction (s : State) : Int := if s.delta % 16384 = 0 then 0 else 1

variable {s : State}

theorem Valid.progress_lt (h : s.Valid) (hs : s.currentStep < s.steps) : s.progress < 16384 := by
  have hsteps := h.steps
  rw [progress, u32_of_lt (by omega), Nat.div_lt_iff_lt_mul h.pos]
  omega

theorem Valid.noOverflow (h : s.Valid) (hs : s.currentStep < s.steps) : s.NoOverflow := by
  obtain ⟨hproducts, hcurve⟩ := curve_bounds s.curve (h.progress_lt hs)
  have hsteps := h.steps
  obtain ⟨hstart, hfinish⟩ := And.intro h.start h.finish
  refine ⟨by omega, hproducts, ?_, ?_⟩ <;> unfold delta <;> nlinarith

theorem Rising.delta (h : s.Rising) (hs : s.currentStep < s.steps) :
    0 ≤ s.delta ∧ s.delta ≤ (s.finish - s.start) * 16383 := by
  have hcurve := (curve_bounds s.curve (h.progress_lt hs)).2
  have hrises : 0 ≤ s.finish - s.start := Int.sub_nonneg.mpr h.rises
  exact ⟨Int.mul_nonneg hrises (by omega), Int.mul_le_mul_of_nonneg_left (by omega) hrises⟩

/-- The dithering stays short of the end, and nothing is lost. -/
theorem Rising.dither (h : s.Rising) (hs : s.currentStep < s.steps) :
    (0 ≤ s.dither.1 ∧ s.start + s.dither.1 ≤ s.finish) ∧ (0 ≤ s.dither.2 ∧ s.dither.2 < 16384) ∧
      (s.Dithered → 16384 * s.dither.1 + s.dither.2 = s.delta + s.errorAcc) := by
  obtain ⟨hnonneg, hle⟩ := h.delta hs
  have hacc := h.acc
  have hrises := h.rises
  unfold State.dither
  rw [Int.tmod_eq_emod_of_nonneg hnonneg]
  dsimp only
  split_ifs with hd hcarry hborrow
  · omega
  · omega
  · omega
  · refine ⟨by omega, by omega, fun hd' => absurd hd' hd⟩

theorem Rising.not_undershoots (h : s.Rising) : ¬ s.Undershoots := by
  rintro ⟨hs, -, hborrow, -⟩
  have hacc := h.acc
  have hrem := Int.tmod_nonneg 16384 (h.delta hs).1
  omega

theorem Falling.delta (h : s.Falling) (hs : s.currentStep < s.steps) :
    (s.finish - s.start) * 16383 ≤ s.delta ∧ s.delta ≤ 0 := by
  have hcurve := (curve_bounds s.curve (h.progress_lt hs)).2
  have hfalls : s.finish - s.start ≤ 0 := by
    have := h.falls
    omega
  exact ⟨Int.mul_le_mul_of_nonpos_left hfalls (by omega), Int.mul_nonpos_of_nonpos_of_nonneg hfalls (by omega)⟩

/-- The remainder of a fraction below zero is short of it by one. -/
theorem tmod_of_nonpos (h : s.delta ≤ 0) : s.delta.tmod 16384 = s.delta - 16384 * (s.delta / 16384) - 16384 * s.fraction ∧
    (s.fraction = 0 ∧ s.delta.tmod 16384 = 0 ∨
      s.fraction = 1 ∧ -16384 < s.delta.tmod 16384 ∧ s.delta.tmod 16384 < 0) := by
  have hdiv := Int.mul_ediv_add_emod s.delta 16384
  unfold fraction
  split
  · next hz =>
    have hzero := Int.tmod_eq_zero_of_dvd (Int.dvd_of_emod_eq_zero hz)
    omega
  · next hz =>
    have hneg := Int.neg_tmod (-s.delta) 16384
    rw [Int.neg_neg, Int.tmod_eq_emod_of_nonneg (show 0 ≤ -s.delta by omega)] at hneg
    omega

/-- The dithering may go one below the end, and each fraction is counted twice. -/
theorem Falling.dither (h : s.Falling) (hs : s.currentStep < s.steps) :
    s.dither.1 ≤ 0 ∧ (s.start + s.dither.1 = s.finish - 1 ∧ s.Undershoots ∨
      s.finish ≤ s.start + s.dither.1 ∧ ¬ s.Undershoots) ∧
      (-16384 < s.dither.2 ∧ s.dither.2 ≤ 0) ∧
      (s.Dithered → 16384 * s.dither.1 + s.dither.2 + 16384 * s.fraction = s.delta + s.errorAcc) := by
  obtain ⟨hge, hnonpos⟩ := h.delta hs
  have hacc := h.acc
  have hfalls := h.falls
  obtain ⟨hrem, hbound⟩ := tmod_of_nonpos hnonpos
  have hwhole : s.finish - s.start ≤ s.delta / 16384 := by omega
  unfold State.dither
  dsimp only
  split_ifs with hd hcarry hborrow
  · omega
  · refine ⟨by dsimp only; omega, ?_, by dsimp only; omega, fun _ => by dsimp only; omega⟩
    by_cases hend : s.delta / 16384 = s.finish - s.start
    · exact .inl ⟨by dsimp only; omega, hs, hd, hborrow, hend⟩
    · exact .inr ⟨by dsimp only; omega, fun hu => hend hu.2.2.2⟩
  · exact ⟨by dsimp only; omega, .inr ⟨by dsimp only; omega, fun hu => hborrow hu.2.2.1⟩, by dsimp only; omega,
      fun _ => by dsimp only; omega⟩
  · exact ⟨by dsimp only; omega, .inr ⟨by dsimp only; omega, fun hu => hd hu.2.1⟩, by dsimp only; omega,
      fun hd' => absurd hd' hd⟩

end State

theorem clamp_of_mem {value : Int} (h : 0 ≤ value ∧ value ≤ 65535) : clamp value = value := by
  rw [clamp, if_neg (by omega), if_neg (by omega)]

/-- What a call can do. -/
theorem getNext_cases (s : State) :
    (s.steps ≤ s.currentStep ∧ getNext s = (s, s.finish)) ∨
      (s.currentStep < s.steps ∧ getNext s =
        ({ s with currentStep := s.currentStep + 1, errorAcc := s.dither.2 }, clamp (s.start + s.dither.1))) := by
  unfold getNext
  split_ifs with h
  · exact .inl ⟨h, rfl⟩
  · exact .inr ⟨Nat.lt_of_not_le h, rfl⟩

/-- The parameters stay, and the step moves on until it is the last. -/
structure Follows (s : State) (n : Nat) (t : State) : Prop where
  start : t.start = s.start
  finish : t.finish = s.finish
  steps : t.steps = s.steps
  passed : min (s.currentStep + n) s.steps ≤ t.currentStep

theorem calls_follows (s : State) (n : Nat) : Follows s n (calls s n) := by
  induction n with
  | zero => exact ⟨rfl, rfl, rfl, Nat.min_le_left ..⟩
  | succ n ih =>
    obtain ⟨hstart, hfinish, hsteps, hpassed⟩ := ih
    rcases getNext_cases (calls s n) with ⟨hend, h⟩ | ⟨hlt, h⟩ <;> rw [calls, h]
    · exact ⟨hstart, hfinish, hsteps, by dsimp only; omega⟩
    · exact ⟨hstart, hfinish, hsteps, by dsimp only; omega⟩

theorem dithered_earlier (s : State) {k : Nat} (hk : k ≤ n) (h : (calls s n).Dithered) : (calls s k).Dithered := by
  induction hk with
  | refl => exact h
  | step _ ih =>
    refine ih ?_
    rename_i m _
    rcases getNext_cases (calls s m) with ⟨_, heq⟩ | ⟨_, heq⟩ <;> rw [calls, heq] at h
    · exact h
    · exact Nat.lt_of_succ_lt h

theorem calls_valid (h : s.Valid) (n : Nat) : (calls s n).Valid := by
  induction n with
  | zero => exact h
  | succ n ih =>
    rcases getNext_cases (calls s n) with ⟨_, h⟩ | ⟨hlt, h⟩ <;> rw [calls, h]
    · exact ih
    · exact ⟨ih.start, ih.finish, ih.steps, ih.pos, hlt⟩

theorem calls_rising (h : s.Rising) (n : Nat) : (calls s n).Rising := by
  induction n with
  | zero => exact h
  | succ n ih =>
    have hvalid := calls_valid h.toValid (n + 1)
    rw [calls] at hvalid ⊢
    rcases getNext_cases (calls s n) with ⟨_, h⟩ | ⟨hlt, h⟩ <;> rw [h] at hvalid ⊢
    · exact ih
    · exact ⟨hvalid, ih.rises, (ih.dither hlt).2.1⟩

theorem calls_falling (h : s.Falling) (n : Nat) : (calls s n).Falling := by
  induction n with
  | zero => exact h
  | succ n ih =>
    have hvalid := calls_valid h.toValid (n + 1)
    rw [calls] at hvalid ⊢
    rcases getNext_cases (calls s n) with ⟨_, h⟩ | ⟨hlt, h⟩ <;> rw [h] at hvalid ⊢
    · exact ih
    · exact ⟨hvalid, ih.falls, (ih.dither hlt).2.2.1⟩

theorem State.Rising.output_eq (h : s.Rising) (hs : s.currentStep < s.steps) :
    (getNext s).2 = s.start + s.dither.1 := by
  have hrange := (h.dither hs).1
  have hstart := h.start
  have hfinish := h.finish
  rcases getNext_cases s with ⟨hend, _⟩ | ⟨_, heq⟩
  · omega
  · rw [heq, clamp_of_mem (by omega)]

theorem rising_range (h : s.Rising) : s.start ≤ (getNext s).2 ∧ (getNext s).2 ≤ s.finish := by
  rcases getNext_cases s with ⟨_, heq⟩ | ⟨hlt, _⟩
  · rw [heq]
    exact ⟨h.rises, le_rfl⟩
  · have hrange := (h.dither hlt).1
    rw [h.output_eq hlt]
    omega

/-- A falling call is in range unless it undershoots an end that is not zero. -/
theorem falling_range (h : s.Falling) :
    (s.finish ≤ (getNext s).2 ∧ (getNext s).2 ≤ s.start) ↔ s.finish = 0 ∨ ¬ s.Undershoots := by
  have hstart := h.start
  have hfinish := h.finish
  have hfalls := h.falls
  rcases getNext_cases s with ⟨hend, heq⟩ | ⟨hlt, heq⟩ <;> rw [heq]
  · exact iff_of_true ⟨le_rfl, hfalls.le⟩ (.inr fun hu => absurd hu.1 (Nat.not_lt.mpr hend))
  · obtain ⟨hle, ⟨hbelow, hu⟩ | ⟨habove, hu⟩, -⟩ := h.dither hlt
    · simp only [hu, not_true_eq_false, or_false]
      rw [hbelow, clamp]
      split_ifs <;> omega
    · refine iff_of_true ?_ (.inr hu)
      dsimp only
      rw [clamp_of_mem (by omega)]
      omega

/-- While the calls are dithered and not clamped, the carried error and the fractions counted twice are what the
outputs so far are short of. -/
theorem diffusion (fraction : State → Int) (n : Nat) (hn : ∀ k < n, (calls s k).Dithered)
    (hout : ∀ k < n, output s k = s.start + (calls s k).dither.1)
    (hstep : ∀ k < n, 16384 * (calls s k).dither.1 + (calls s k).dither.2 + 16384 * fraction (calls s k) =
      (calls s k).delta + (calls s k).errorAcc) :
    16384 * ∑ k ∈ Finset.range n, (output s k - s.start) + (calls s n).errorAcc +
        16384 * ∑ k ∈ Finset.range n, fraction (calls s k) =
      (∑ k ∈ Finset.range n, (calls s k).delta) + s.errorAcc := by
  induction n with
  | zero => simp [calls]
  | succ n ih =>
    have hlt : (calls s n).currentStep < (calls s n).steps := Nat.lt_of_succ_lt (hn n (Nat.lt_succ_self n))
    have hacc : (calls s (n + 1)).errorAcc = (calls s n).dither.2 := by
      rcases getNext_cases (calls s n) with ⟨hend, _⟩ | ⟨_, heq⟩
      · omega
      · rw [calls, heq]
    have hbefore := ih (fun k hk => hn k (Nat.lt_succ_of_lt hk)) (fun k hk => hout k (Nat.lt_succ_of_lt hk))
      fun k hk => hstep k (Nat.lt_succ_of_lt hk)
    have hlast := hstep n (Nat.lt_succ_self n)
    rw [Finset.sum_range_succ, Finset.sum_range_succ, Finset.sum_range_succ, hacc, hout n (Nat.lt_succ_self n)]
    linarith

theorem rising_diffusion (h : s.Rising) (n : Nat) (hn : ∀ k < n, (calls s k).Dithered) :
    16384 * ∑ k ∈ Finset.range n, (output s k - s.start) + (calls s n).errorAcc =
      (∑ k ∈ Finset.range n, (calls s k).delta) + s.errorAcc := by
  have hlt (k : Nat) (hk : k < n) : (calls s k).currentStep < (calls s k).steps := Nat.lt_of_succ_lt (hn k hk)
  have hsum := diffusion (fun _ => 0) n hn
    (fun k hk => by rw [output, (calls_rising h k).output_eq (hlt k hk), (calls_follows s k).start])
    fun k hk => by rw [Int.mul_zero, Int.add_zero]; exact ((calls_rising h k).dither (hlt k hk)).2.2 (hn k hk)
  simpa using hsum

/-- The fractions of the first calls. -/
def fractions (s : State) (n : Nat) : Int := ∑ k ∈ Finset.range n, (calls s k).fraction

theorem fraction_nonneg (s : State) : 0 ≤ s.fraction := by
  unfold State.fraction
  split <;> decide

theorem fractions_mono (s : State) {m : Nat} (h : m ≤ n) : fractions s m ≤ fractions s n :=
  Finset.sum_le_sum_of_subset_of_nonneg (Finset.range_mono h) fun _ _ _ => fraction_nonneg _

/-- Without a fraction nothing is carried, and behind one its remainder. -/
theorem fractions_cases (h : s.Falling) (hs : s.errorAcc = 0) (hn : ∀ k < n, (calls s k).Dithered) :
    fractions s n = 0 ∧ (calls s n).errorAcc = 0 ∨ fractions s n = 1 ∧ (calls s n).errorAcc < 0 ∨ 2 ≤ fractions s n := by
  induction n with
  | zero => exact .inl ⟨rfl, hs⟩
  | succ n ih =>
    have hd := hn n (Nat.lt_succ_self n)
    have hlt : (calls s n).currentStep < (calls s n).steps := Nat.lt_of_succ_lt hd
    have hfall := calls_falling h n
    have hacc := hfall.acc
    have hsum : fractions s (n + 1) = fractions s n + (calls s n).fraction := Finset.sum_range_succ ..
    have hrem := (State.tmod_of_nonpos (hfall.delta hlt).2).2
    have hbefore := ih fun k hk => hn k (Nat.lt_succ_of_lt hk)
    have hnext : (calls s (n + 1)).errorAcc = (calls s n).dither.2 := by
      rcases getNext_cases (calls s n) with ⟨hend, _⟩ | ⟨_, heq⟩
      · omega
      · rw [calls, heq]
    rw [hnext, hsum]
    unfold State.dither
    dsimp only
    rw [if_pos hd]
    split_ifs <;> dsimp only <;> omega

/-- A falling run is not clamped as long as its end is not zero or it has had one fraction only. -/
theorem falling_output (h : s.Falling) (hs : s.errorAcc = 0) (hn : ∀ k < n + 1, (calls s k).Dithered)
    (hc : 0 < s.finish ∨ fractions s (n + 1) ≤ 1) : output s n = s.start + (calls s n).dither.1 := by
  have hlt : (calls s n).currentStep < (calls s n).steps := Nat.lt_of_succ_lt (hn n (Nat.lt_succ_self n))
  have hfall := calls_falling h n
  have hsame := calls_follows s n
  have hstart := h.start
  obtain ⟨hle, hcase, -⟩ := hfall.dither hlt
  rw [hsame.start, hsame.finish] at hcase
  have hpos : 0 ≤ s.start + (calls s n).dither.1 := by
    have hfinish := h.finish
    rcases hcase with ⟨hbelow, -, -, hborrow, -⟩ | ⟨habove, -⟩
    · refine hc.elim (fun _ => by omega) fun hone => ?_
      -- one is taken off only behind a fraction, at another one
      have hsum : fractions s (n + 1) = fractions s n + (calls s n).fraction := Finset.sum_range_succ ..
      have hacc := hfall.acc
      have hrem := (State.tmod_of_nonpos (hfall.delta hlt).2).2
      have hbefore := fractions_cases h hs fun k hk => hn k (Nat.lt_succ_of_lt hk)
      omega
    · omega
  rcases getNext_cases (calls s n) with ⟨hend, _⟩ | ⟨_, heq⟩
  · omega
  · rw [output, heq, hsame.start]
    exact clamp_of_mem (by omega)

theorem falling_diffusion (h : s.Falling) (hs : s.errorAcc = 0) (hn : ∀ k < n, (calls s k).Dithered)
    (hc : 0 < s.finish ∨ fractions s n ≤ 1) :
    16384 * ∑ k ∈ Finset.range n, (output s k - s.start) + (calls s n).errorAcc + 16384 * fractions s n =
      ∑ k ∈ Finset.range n, (calls s k).delta := by
  have hsum := diffusion State.fraction n hn
    (fun k hk => falling_output h hs (fun j hj => hn j (by omega)) (hc.imp_right (fractions_mono s hk).trans))
    fun k hk => ((calls_falling h k).dither (Nat.lt_of_succ_lt (hn k hk))).2.2.2 (hn k hk)
  rw [hs, Int.add_zero] at hsum
  exact hsum

/-! ### Whole runs -/

theorem init_valid (curve : Curve) (hstart : 0 ≤ start ∧ start ≤ 65535) (hfinish : 0 ≤ finish ∧ finish ≤ 65535)
    (hcnt : 1 ≤ stepCnt ∧ stepCnt ≤ 262143) :
    (init start finish stepCnt curve).Valid ∧ (init start finish stepCnt curve).steps = stepCnt.toNat ∧
      1 ≤ (init start finish stepCnt curve).currentStep := by
  have hsteps : (if stepCnt ≤ 0 then 1 else stepCnt.toNat) = stepCnt.toNat := if_neg (by omega)
  unfold init
  rw [hsteps]
  refine ⟨⟨hstart, hfinish, ?_, ?_, ?_⟩, rfl, ?_⟩ <;> dsimp only
  · omega
  · omega
  · split_ifs <;> omega
  · split_ifs <;> omega

theorem init_rising (curve : Curve) (hstart : 0 ≤ start ∧ start ≤ 65535) (hfinish : 0 ≤ finish ∧ finish ≤ 65535)
    (hcnt : 1 ≤ stepCnt ∧ stepCnt ≤ 262143) (hrises : start ≤ finish) : (init start finish stepCnt curve).Rising :=
  ⟨(init_valid curve hstart hfinish hcnt).1, hrises, Int.le_refl 0, (by decide : (0 : Int) < 16384)⟩

theorem init_falling (curve : Curve) (hstart : 0 ≤ start ∧ start ≤ 65535) (hfinish : 0 ≤ finish ∧ finish ≤ 65535)
    (hcnt : 1 ≤ stepCnt ∧ stepCnt ≤ 262143) (hfalls : finish < start) : (init start finish stepCnt curve).Falling :=
  ⟨(init_valid curve hstart hfinish hcnt).1, hfalls, (by decide : (-16384 : Int) < 0), Int.le_refl 0⟩

/-- At every dithered call the offsets put out so far differ from the exact curve by less than one. -/
def Diffuses (s : State) : Prop :=
  ∀ n, (calls s n).Dithered →
    |16384 * (∑ k ∈ Finset.range (n + 1), (output s k - s.start)) - ∑ k ∈ Finset.range (n + 1), (calls s k).delta| < 16384

/-- **Where step dimming diffuses its error**: on a run that rises, and on one that falls as long as one dithered
call at most has a fraction. Where the end is not zero, so that nothing is clamped, it diffuses nowhere else. -/
theorem dimming_diffuses (start finish stepCnt : Int) (curve : Curve) (hstart : 0 ≤ start ∧ start ≤ 65535)
    (hfinish : 0 ≤ finish ∧ finish ≤ 65535) (hcnt : 1 ≤ stepCnt ∧ stepCnt ≤ 262143) :
    ((start ≤ finish ∨ ∀ n, (calls (init start finish stepCnt curve) n).Dithered →
        fractions (init start finish stepCnt curve) (n + 1) ≤ 1) → Diffuses (init start finish stepCnt curve)) ∧
      (0 < finish → Diffuses (init start finish stepCnt curve) →
        start ≤ finish ∨ ∀ n, (calls (init start finish stepCnt curve) n).Dithered →
          fractions (init start finish stepCnt curve) (n + 1) ≤ 1) := by
  have hearlier {n : Nat} (hn : (calls (init start finish stepCnt curve) n).Dithered) (k : Nat) (hk : k < n + 1) :
      (calls (init start finish stepCnt curve) k).Dithered := dithered_earlier _ (Nat.le_of_lt_succ hk) hn
  rcases le_or_gt start finish with hrises | hfalls
  · have hrising := init_rising curve hstart hfinish hcnt hrises
    refine ⟨fun _ n hn => ?_, fun _ _ => .inl hrises⟩
    have hsum := rising_diffusion hrising (n + 1) (hearlier hn)
    have hacc := (calls_rising hrising (n + 1)).acc
    rw [show (init start finish stepCnt curve).errorAcc = 0 from rfl] at hsum
    rw [abs_lt]
    constructor <;> linarith
  · have hfalling := init_falling curve hstart hfinish hcnt hfalls
    have hsum (n : Nat) (hn : (calls (init start finish stepCnt curve) n).Dithered) := fun hc =>
      falling_diffusion (n := n + 1) hfalling rfl (hearlier hn) hc
    have hacc (n : Nat) := (calls_falling hfalling (n + 1)).acc
    refine ⟨fun hc n hn => ?_, fun hpos hdiff => .inr fun n hn => ?_⟩
    · have hone := (hc.resolve_left (not_le.mpr hfalls)) n hn
      have hsum := hsum n hn (.inr hone)
      have hacc := hacc n
      rw [abs_lt]
      rcases fractions_cases (n := n + 1) hfalling rfl (hearlier hn) with ⟨hf, ha⟩ | ⟨hf, ha⟩ | hf
      · rw [hf, ha] at hsum
        constructor <;> linarith
      · rw [hf] at hsum
        constructor <;> linarith
      · omega
    · have hsum := hsum n hn (.inl hpos)
      have hacc := hacc n
      have hless := abs_lt.mp (hdiff n hn)
      by_contra hmore
      linarith [hless.1]

theorem dimming_diffuses_cubic :
    |16384 * (∑ k ∈ Finset.range 5, (output (init 3 900 20 .cubic) k - 3)) -
      ∑ k ∈ Finset.range 5, (calls (init 3 900 20 .cubic) k).delta| < 16384 :=
  (dimming_diffuses 3 900 20 .cubic (by decide) (by decide) (by decide)).1 (.inl (by decide)) 4 (by decide +kernel)

/-- One step down in ten calls: behind the second, both dithered, the offsets are off by 1.7. -/
theorem dimming_counts_twice : (calls (init 101 100 10 .linear) 1).Dithered ∧
    ¬ |16384 * (∑ k ∈ Finset.range 2, (output (init 101 100 10 .linear) k - 101)) -
      ∑ k ∈ Finset.range 2, (calls (init 101 100 10 .linear) k).delta| < 16384 := by decide +kernel

end Qumios.StepDelta
