import Qumios.Lib.Dates
import Qumios.Time.Calendar

/-! Where the calendar of `qm_time.c` is that of the instant.

`_qm_gmtime_r` takes every fourth year for a leap year, so its dates are Gregorian until the end of
February 2100; `_qm_mktime` counts Gregorian days in every year from 1970 on. The day of the year is
a matter of its own: it is counted through the period of four years in years of 365 days, so that
from the last day of a leap year to the end of the next year it is wrong (`calendar_exact_iff`). -/
namespace Qumios.Time

open Dates

/-- A broken-down time is that of an instant: every field is in its range, and date, weekday and time of
day are those of the instant. 1 January 1970 was a Thursday. -/
structure Denotes (tm : Tm) (time : Nat) : Prop where
  sec : tm.sec ≤ 59
  min : tm.min ≤ 59
  hour : tm.hour ≤ 23
  clock : tm.hour * 3600 + tm.min * 60 + tm.sec = time % 86400
  wday : tm.wday = (time / 86400 + 4) % 7
  date : IsDate gregorian (tm.year + 1900) tm.mon tm.mday tm.yday (time / 86400)

/-! ### The date -/

theorem everyFourth_year (year : Nat) : everyFourth (year + 1900) = decide (year % 4 = 0) := by
  have hmod : (year + 1900) % 4 = year % 4 := by omega
  rw [everyFourth, hmod]

/-- The loop over the years passes whole years, and with enough rounds ends inside one. -/
theorem yearLoopDays_count (fuel years days : Nat) :
    daysToYear everyFourth ((yearLoopDays fuel (70 + years) days).1 - 70) + (yearLoopDays fuel (70 + years) days).2 =
        daysToYear everyFourth years + days ∧
      (daysToYear everyFourth years + days < daysToYear everyFourth (years + fuel) →
        (yearLoopDays fuel (70 + years) days).2 <
          yearLength (everyFourth ((yearLoopDays fuel (70 + years) days).1 + 1900))) := by
  induction fuel generalizing years days with
  | zero =>
    refine ⟨by rw [yearLoopDays, Nat.add_sub_cancel_left], fun hlt => ?_⟩
    rw [Nat.add_zero] at hlt
    omega
  | succ fuel ih =>
    have hlength : (if (70 + years) % 4 = 0 then 366 else 365) = yearLength (everyFourth (70 + years + 1900)) := by
      rw [everyFourth_year, yearLength]
      simp
    have hyear : daysToYear everyFourth (years + 1) =
        daysToYear everyFourth years + yearLength (everyFourth (70 + years + 1900)) := by
      rw [daysToYear, show 70 + years + 1900 = 1970 + years by omega]
    rw [yearLoopDays, hlength]
    by_cases hin : days < yearLength (everyFourth (70 + years + 1900))
    · rw [if_pos hin]
      exact ⟨by rw [Nat.add_sub_cancel_left], fun _ => hin⟩
    · rw [if_neg hin, show 70 + years + 1 = 70 + (years + 1) by omega]
      obtain ⟨hcount, hend⟩ := ih (years + 1) (days - yearLength (everyFourth (70 + years + 1900)))
      refine ⟨by omega, fun hlt => hend ?_⟩
      rw [show years + 1 + fuel = years + (fuel + 1) by omega]
      omega

theorem dateOf_first : (∀ day ∈ List.range 366, IsDayOf true (dateOf 0 (day + 1)).1 (dateOf 0 (day + 1)).2 day) ∧
    ∀ day ∈ List.range 365, IsDayOf false (dateOf 1 (day + 1)).1 (dateOf 1 (day + 1)).2 day := by
  decide +kernel

variable {year day time mon : Nat}

theorem dateOf_isDayOf (hday : day < yearLength (everyFourth (year + 1900))) :
    IsDayOf (everyFourth (year + 1900)) (dateOf year (day + 1)).1 (dateOf year (day + 1)).2 day := by
  rw [everyFourth_year] at hday ⊢
  by_cases hleap : year % 4 = 0
  · have hsame : dateOf year (day + 1) = dateOf 0 (day + 1) := by simp [dateOf, hleap]
    rw [decide_eq_true hleap] at hday ⊢
    rw [hsame]
    exact dateOf_first.1 day (List.mem_range.mpr hday)
  · have hsame : dateOf year (day + 1) = dateOf 1 (day + 1) := by simp [dateOf, hleap]
    rw [decide_eq_false hleap] at hday ⊢
    rw [hsame]
    exact dateOf_first.2 day (List.mem_range.mpr hday)

theorem ofFirstYears_isDate (hday : day < 1461) :
    IsDate everyFourth ((ofFirstYears day).1 + 1900) (ofFirstYears day).2.1 (ofFirstYears day).2.2
      (yearLoopDays 4 70 day).2 day := by
  obtain ⟨hcount, hend⟩ := yearLoopDays_count 4 0 day
  have hstart : daysToYear everyFourth 0 + day < daysToYear everyFourth (0 + 4) := by
    rw [show daysToYear everyFourth (0 + 4) = 1461 from rfl, daysToYear]
    omega
  have hfirst : 70 ≤ (ofFirstYears day).1 := le_yearLoopDays 4 70 day
  have hyears : (ofFirstYears day).1 + 1900 - 1970 = (yearLoopDays 4 70 day).1 - 70 := by
    rw [show (ofFirstYears day).1 = (yearLoopDays 4 70 day).1 from rfl]
    omega
  rw [daysToYear, Nat.zero_add, Nat.add_zero] at hcount
  refine ⟨by omega, dateOf_isDayOf (hend hstart), ?_⟩
  rw [hyears]
  exact hcount

/-- **The date of an instant**, by the rule that every fourth year is a leap year. -/
theorem gmtimeR_isDate (htime : time / 60 / 60 < 2 ^ 32) :
    IsDate everyFourth ((gmtimeR time).year + 1900) (gmtimeR time).mon (gmtimeR time).mday
      (yearLoopDays 4 70 (time / 86400 % 1461)).2 (time / 86400) := by
  obtain ⟨hyear, hmon, hmday⟩ := gmtimeR_date htime
  have hperiod := (ofFirstYears_isDate (Nat.mod_lt (time / 86400) (by decide : 0 < 1461))).later (time / 86400 / 1461)
  rw [hyear, hmon, hmday, Nat.add_assoc]
  rwa [Nat.div_add_mod'] at hperiod

/-! ### The day of the year -/

theorem gmtimeR_yday (time : Nat) : (gmtimeR time).yday = time / 86400 % 1461 % 365 := by
  have hday : time / 60 / 60 % (1461 * 24) / 24 = time / 86400 % 1461 := by omega
  rw [← hday]
  rfl

theorem yday_eq_iff (hday : day < 1461) : day % 365 = (yearLoopDays 4 70 day).2 ↔ day < 1095 := by
  simp only [yearLoopDays, Nat.reduceMod, Nat.reduceAdd, Nat.reduceEqDiff, reduceIte]
  split_ifs <;> omega

/-! ### The time of day -/

theorem gmtimeR_hour : (gmtimeR time).hour = time / 3600 % 24 := by
  have hhours : time / 60 / 60 % (1461 * 24) = time / 86400 % 1461 * 24 + time / 3600 % 24 := by omega
  have hloop := yearLoop_hours 4 (time / 60 / 60 % 2 ^ 32 / (1461 * 24) * 4 + 70) (time / 86400 % 1461)
    (Nat.mod_lt (time / 3600) (by decide : 0 < 24))
  simp only [gmtimeR, hhours, hloop]
  omega

theorem gmtimeR_clock (time : Nat) :
    (gmtimeR time).hour * 3600 + (gmtimeR time).min * 60 + (gmtimeR time).sec = time % 86400 := by
  have hmin : (gmtimeR time).min = time / 60 % 60 := rfl
  have hsec : (gmtimeR time).sec = time % 60 := rfl
  rw [gmtimeR_hour, hmin, hsec]
  omega

/-! ### The way back -/

theorem daysToMonth_march (hmon : mon < 12) (leap : Bool) :
    (mon ≤ 1 ∧ daysToMonth leap mon + 336 = 367 * (mon + 11) / 12) ∨
      (2 ≤ mon ∧ daysToMonth leap mon = 367 * (mon - 1) / 12 + 29 + leap.toNat) := by
  revert leap mon
  decide

/-- **`_qm_mktime` counts Gregorian days**, in every year from 1970 on. -/
theorem dayNumber_of_isDate {mday yday : Nat} (h : IsDate gregorian year mon mday yday day) :
    dayNumber year (mon + 1) mday = day := by
  obtain ⟨hyear, ⟨hmon, hpos, -, hof⟩, hcount⟩ := h
  have hboth := daysToYear_gregorian (year - 1970)
  have hsum := daysToYear_everyFourth (year - 1970)
  have hbefore : 1969 + (year - 1970) = year - 1 := by omega
  unfold dayNumber
  obtain ⟨hearly, hmonth⟩ | ⟨hlate, hmonth⟩ := daysToMonth_march hmon (gregorian year)
  · rw [if_pos (by omega)]
    dsimp only
    have hmon11 : mon + 1 + 10 = mon + 11 := by omega
    omega
  · rw [if_neg (by omega)]
    dsimp only
    have hmon1 : mon + 1 - 2 = mon - 1 := by omega
    have hleap : year / 4 - year / 100 + year / 400 =
        (year - 1) / 4 - (year - 1) / 100 + (year - 1) / 400 + (gregorian year).toNat := by
      by_cases hrule : year % 4 = 0 ∧ (year % 100 ≠ 0 ∨ year % 400 = 0)
      · rw [gregorian, decide_eq_true hrule, Bool.toNat_true]
        omega
      · rw [gregorian, decide_eq_false hrule, Bool.toNat_false]
        omega
    rw [hmon1, hleap]
    generalize 367 * (mon - 1) / 12 = march at hmonth ⊢
    omega

theorem Denotes.mktime_eq {tm : Tm} (h : Denotes tm time) : mktime tm = time := by
  have hclock := h.clock
  rw [mktime, dayNumber_of_isDate h.date]
  omega

/-! ### Exactness -/

/-- **Where the calendar is exact**: among the instants of 32 bits, those before March 2100 that are neither in
the year after a leap year nor on a leap year's last day. -/
theorem calendar_exact_iff {time : Nat} (htime : time < 2 ^ 32) :
    (Denotes (gmtimeR time) time ∧ mktime (gmtimeR time) = time) ↔
      time < 4107542400 ∧ time / 86400 % 1461 < 1095 := by
  have hhours : time / 60 / 60 < 2 ^ 32 := by omega
  have hdate := gmtimeR_isDate hhours
  have hinPeriod : time / 86400 % 1461 < 1461 := Nat.mod_lt _ (by decide)
  have hparting : time / 86400 < parting ↔ time < 4107542400 := by
    rw [show parting = 47541 from rfl]
    omega
  constructor
  · rintro ⟨hdenotes, -⟩
    have hbefore : time / 86400 < parting := by
      by_contra hafter
      -- 2^32 seconds end in 2106, long before the next century
      have hlast : (gmtimeR time).year + 1900 < 2200 := by
        have hcount := hdate.count
        rw [daysToYear_everyFourth] at hcount
        omega
      exact hdate.not_gregorian (Nat.not_lt.mp hafter) hlast hdenotes.date
    have hsame := (hdate.gregorian_of_lt hbefore).ofYear.count.symm.trans hdenotes.date.ofYear.count
    rw [gmtimeR_yday] at hsame
    exact ⟨hparting.mp hbefore, (yday_eq_iff hinPeriod).mp hsame.symm⟩
  · rintro ⟨hbefore, hyday⟩
    have hgregorian := hdate.gregorian_of_lt (hparting.mpr hbefore)
    rw [← (yday_eq_iff hinPeriod).mpr hyday, ← gmtimeR_yday] at hgregorian
    have hdenotes : Denotes (gmtimeR time) time :=
      { sec := Nat.le_of_lt_succ (Nat.mod_lt _ (by decide))
        min := Nat.le_of_lt_succ (Nat.mod_lt _ (by decide))
        hour := gmtimeR_hour ▸ Nat.le_of_lt_succ (Nat.mod_lt _ (by decide))
        clock := gmtimeR_clock time
        wday := gmtimeR_wday time
        date := hgregorian }
    exact ⟨hdenotes, hdenotes.mktime_eq⟩

/-- 29 February 2024. -/
theorem calendar_exact_leap_day :
    Denotes (gmtimeR 1709164800) 1709164800 ∧ mktime (gmtimeR 1709164800) = 1709164800 :=
  (calendar_exact_iff (by decide)).mpr (by decide)

/-- The last day of 1972 is given as the first of its year, and 2 March 2100 as 1 March, which leads back to a day
before. -/
theorem calendar_not_exact :
    (gmtimeR 94608000).yday = 0 ∧ (gmtimeR 94608000).mon = 11 ∧ (gmtimeR 94608000).mday = 31 ∧
      mktime (gmtimeR 4107628800) = 4107542400 ∧
      ¬ ∀ time < 2 ^ 32, Denotes (gmtimeR time) time ∧ mktime (gmtimeR time) = time := by
  refine ⟨by decide +kernel, by decide +kernel, by decide +kernel, by decide +kernel, fun hexact => ?_⟩
  have hback := (hexact 4107628800 (by decide)).2
  revert hback
  decide +kernel

end Qumios.Time
