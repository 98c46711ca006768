import Mathlib

/-! Dates as counts of days since 1970.

A calendar of months of the known lengths is given by its rule for leap years. `IsDate leap` says which
day since 1970 a date is under a rule. Two rules are compared here: that of the Gregorian calendar, and
that by which every fourth year is a leap year. They name each day alike until the end of February 2100,
and differently for the hundred years after that. -/
namespace Qumios.Dates

/-! ### Counting days -/

def monthLength (leap : Bool) : Nat → Nat
  | 1 => if leap then 29 else 28
  | 3 | 5 | 8 | 10 => 30
  | _ => 31

def daysToMonth (leap : Bool) : Nat → Nat
  | 0 => 0
  | mon + 1 => daysToMonth leap mon + monthLength leap mon

def yearLength (leap : Bool) : Nat := if leap then 366 else 365

def daysToYear (leap : Nat → Bool) : Nat → Nat
  | 0 => 0
  | years + 1 => daysToYear leap years + yearLength (leap (1970 + years))

/-- A day of a year, counted from 0, has this month and day. -/
structure IsDayOf (leap : Bool) (mon mday yday : Nat) : Prop where
  mon_lt : mon < 12
  mday_pos : 1 ≤ mday
  mday_le : mday ≤ monthLength leap mon
  count : daysToMonth leap mon + (mday - 1) = yday

instance (leap : Bool) (mon mday yday : Nat) : Decidable (IsDayOf leap mon mday yday) :=
  decidable_of_iff (mon < 12 ∧ 1 ≤ mday ∧ mday ≤ monthLength leap mon ∧ daysToMonth leap mon + (mday - 1) = yday)
    ⟨fun h => ⟨h.1, h.2.1, h.2.2.1, h.2.2.2⟩, fun h => ⟨h.mon_lt, h.mday_pos, h.mday_le, h.count⟩⟩

/-- A day since 1970 has this date, and is this day of its year. -/
structure IsDate (leap : Nat → Bool) (year mon mday yday day : Nat) : Prop where
  year_ge : 1970 ≤ year
  ofYear : IsDayOf (leap year) mon mday yday
  count : daysToYear leap (year - 1970) + yday = day

theorem IsDayOf.yday_lt {leap : Bool} {mon mday yday : Nat} (h : IsDayOf leap mon mday yday) :
    yday < yearLength leap := by
  obtain ⟨hmon, hpos, hle, hcount⟩ := h
  have hmonth : daysToMonth leap mon + monthLength leap mon ≤ yearLength leap := by
    clear hle hcount
    revert leap mon
    decide
  omega

/-! ### The two rules -/

def gregorian (year : Nat) : Bool := year % 4 = 0 ∧ (year % 100 ≠ 0 ∨ year % 400 = 0)

def everyFourth (year : Nat) : Bool := year % 4 = 0

theorem yearLength_everyFourth (year : Nat) : yearLength (everyFourth year) = if year % 4 = 0 then 366 else 365 := by
  simp [yearLength, everyFourth]

theorem yearLength_gregorian (year : Nat) :
    yearLength (gregorian year) = if year % 4 = 0 ∧ (year % 100 ≠ 0 ∨ year % 400 = 0) then 366 else 365 := by
  simp only [yearLength, gregorian, decide_eq_true_eq]

theorem daysToYear_everyFourth (years : Nat) : daysToYear everyFourth years = 365 * years + (years + 1) / 4 := by
  induction years with
  | zero => rfl
  | succ years ih =>
    rw [daysToYear, ih, yearLength_everyFourth]
    split <;> omega

/-- The years that end a century lack their day, but for every fourth of them. -/
theorem daysToYear_gregorian (years : Nat) :
    daysToYear gregorian years + ((1969 + years) / 100 - (1969 + years) / 400) =
      15 + daysToYear everyFourth years := by
  induction years with
  | zero => rfl
  | succ years ih =>
    rw [daysToYear, daysToYear, yearLength_gregorian, yearLength_everyFourth]
    split
    · rw [if_pos (by omega)]
      omega
    · split <;> omega

variable {year mon mday yday day yday' : Nat}

theorem gregorian_eq (hyear : year % 100 ≠ 0 ∨ year % 400 = 0) : gregorian year = everyFourth year := by
  simp [gregorian, everyFourth, hyear]

theorem IsDate.later (h : IsDate everyFourth year mon mday yday day) (periods : Nat) :
    IsDate everyFourth (periods * 4 + year) mon mday yday (periods * 1461 + day) := by
  obtain ⟨hyear, hof, hcount⟩ := h
  have hrule : everyFourth (periods * 4 + year) = everyFourth year := by
    simp [everyFourth]
  refine ⟨by omega, by rwa [hrule], ?_⟩
  have hyears : periods * 4 + year - 1970 = periods * 4 + (year - 1970) := by omega
  rw [hyears, daysToYear_everyFourth]
  rw [daysToYear_everyFourth] at hcount
  omega

/-! ### Where they part -/

def parting : Nat := 47541

/-- In a leap year and a common one the days before the end of February have one date. -/
theorem IsDayOf.common (h : IsDayOf true mon mday yday) (hyday : yday < 59) : IsDayOf false mon mday yday := by
  obtain ⟨hmon, hpos, hle, hcount⟩ := h
  have hfirst : mon = 0 ∨ mon = 1 ∨ 60 ≤ daysToMonth true mon := by
    clear hcount hle
    revert mon
    decide
  obtain rfl | rfl | hlate := hfirst
  · exact ⟨hmon, hpos, hle, hcount⟩
  · simp only [daysToMonth, monthLength] at hcount
    refine ⟨hmon, hpos, ?_, hcount⟩
    simp only [monthLength, Bool.false_eq_true, if_false]
    omega
  · omega

theorem IsDayOf.apart (h : IsDayOf true mon mday yday) (h' : IsDayOf false mon mday yday') (hyday : 59 ≤ yday) :
    yday = yday' + 1 := by
  obtain ⟨hmon, hpos, -, hcount⟩ := h
  obtain ⟨-, -, hle', hcount'⟩ := h'
  have hfirst : (mon ≤ 1 ∧ daysToMonth true mon + monthLength false mon ≤ 59) ∨
      daysToMonth true mon = daysToMonth false mon + 1 := by
    clear hcount hcount' hle'
    revert mon
    decide
  omega

/-- **Up to the parting** the rule of every fourth year gives Gregorian dates. -/
theorem IsDate.gregorian_of_lt (h : IsDate everyFourth year mon mday yday day) (hday : day < parting) :
    IsDate gregorian year mon mday yday day := by
  obtain ⟨hyear, hof, hcount⟩ := h
  have hparting : day < 47541 := hday
  have hsum := daysToYear_everyFourth (year - 1970)
  have hboth := daysToYear_gregorian (year - 1970)
  refine ⟨hyear, ?_, by omega⟩
  by_cases hend : year = 2100
  · subst hend
    exact hof.common (by omega)
  · rwa [gregorian_eq (by omega)]

/-- **After it** no date that the rule gives is the Gregorian one. -/
theorem IsDate.not_gregorian (h : IsDate everyFourth year mon mday yday day) (hday : parting ≤ day)
    (hlast : year < 2200) : ¬ IsDate gregorian year mon mday yday' day := by
  intro h'
  have hparting : 47541 ≤ day := hday
  have hsum := daysToYear_everyFourth (year - 1970)
  have hboth := daysToYear_gregorian (year - 1970)
  have hcount := h.count
  have hcount' := h'.count
  have hof := h.ofYear
  have hof' := h'.ofYear
  have hyear : 2100 ≤ year := by
    have hlt := hof.yday_lt
    have hend : yearLength (everyFourth year) ≤ 366 := by cases everyFourth year <;> decide
    omega
  by_cases hend : year = 2100
  · subst hend
    have hone := hof.apart hof' (by omega)
    omega
  · rw [gregorian_eq (by omega)] at hof'
    have hsame : yday = yday' := hof.count.symm.trans hof'.count
    omega

end Qumios.Dates
