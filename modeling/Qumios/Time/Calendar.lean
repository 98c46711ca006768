import Mathlib

/-! The calendar of `qm_time.c`: seconds since 1970 to broken-down time, and back.

`_qm_gmtime_r` counts in hours and in periods of four years; `_qm_mktime` counts the days of
the Gregorian calendar from a year that begins in March. From 1970 to the end of 2097 the two
agree: the date of an instant, with another time of day, leads to that time of the same day
(`mktime_gmtimeR`). -/
namespace Qumios.Time

/-- `struct qm_tm`. -/
structure Tm where
  sec : Nat
  min : Nat
  hour : Nat
  mday : Nat
  mon : Nat
  year : Nat
  wday : Nat
  yday : Nat
  deriving DecidableEq, Repr

/-! ### To a date -/

/-- The years of a period of four, in hours; `fuel` rounds at most. -/
def yearLoop : Nat → Nat → Nat → Nat × Nat
  | 0, year, hours => (year, hours)
  | fuel + 1, year, hours =>
    let hpery := if year % 4 = 0 then 8760 + 24 else 8760
    if hours < hpery then (year, hours) else yearLoop fuel (year + 1) (hours - hpery)

/-- `Days`. -/
def daysOfMonths : List Nat := [31, 28, 31, 30, 31, 30, 31, 31, 30, 31, 30, 31]

def monthLoop : Nat → List Nat → Nat → Nat × Nat
  | mon, [], day => (mon, day)
  | mon, days :: rest, day => if days < day then monthLoop (mon + 1) rest (day - days) else (mon, day)

def dateOf (year day : Nat) : Nat × Nat :=
  if year % 4 = 0 ∧ day = 60 then (1, 29)
  else monthLoop 0 daysOfMonths (if year % 4 = 0 ∧ 60 < day then day - 1 else day)

/-- `_qm_gmtime_r`. -/
def gmtimeR (time : Nat) : Tm :=
  let hours := time / 60 / 60
  let pass4year := hours % 2 ^ 32 / (1461 * 24)
  let ofPeriod := hours % (1461 * 24)
  let (year, ofYear) := yearLoop 4 (pass4year * 4 + 70) ofPeriod
  let (mon, mday) := dateOf year (ofYear / 24 + 1)
  { sec := time % 60
    min := time / 60 % 60
    hour := ofYear % 24
    mday := mday
    mon := mon
    year := year
    wday := (hours / 24 + 4) % 7
    yday := ofPeriod / 24 % 365 }

/-- `_qm_localtime_r`, `minuteswest` minutes east of Greenwich, in 64 bits. -/
def localtimeR (minuteswest : Int) (time : Nat) : Tm :=
  gmtimeR ((time + minuteswest * 60) % 2 ^ 64).toNat

variable {time year day : Nat}

theorem localtimeR_zero (htime : time < 2 ^ 64) : localtimeR 0 time = gmtimeR time := by
  have hsame : ((time : Int) + 0 * 60) % 2 ^ 64 = time := by omega
  rw [localtimeR, hsame, Int.toNat_natCast]

/-! ### To seconds -/

def dayNumber (year0 mon0 day : Nat) : Nat :=
  -- 1..12 -> 11, 12, 1..10: February is last, since it has the leap day
  let (mon, year) := if mon0 ≤ 2 then (mon0 + 10, year0 - 1) else (mon0 - 2, year0)
  year / 4 - year / 100 + year / 400 + 367 * mon / 12 + day + year * 365 - 719499

/-- `qm_mktime`. -/
def mktime (tm : Tm) : Nat :=
  ((dayNumber (tm.year + 1900) (tm.mon + 1) tm.mday * 24 + tm.hour) * 60 + tm.min) * 60 + tm.sec

/-! ### There and back -/

def yearLoopDays : Nat → Nat → Nat → Nat × Nat
  | 0, year, days => (year, days)
  | fuel + 1, year, days =>
    let dpery := if year % 4 = 0 then 366 else 365
    if days < dpery then (year, days) else yearLoopDays fuel (year + 1) (days - dpery)

theorem yearLoop_hours (fuel year days : Nat) {hour : Nat} (hhour : hour < 24) :
    yearLoop fuel year (days * 24 + hour) =
      ((yearLoopDays fuel year days).1, (yearLoopDays fuel year days).2 * 24 + hour) := by
  induction fuel generalizing year days with
  | zero => rfl
  | succ fuel ih =>
    rw [yearLoop, yearLoopDays]
    by_cases hleap : year % 4 = 0
    · simp only [if_pos hleap]
      by_cases hlt : days < 366
      · rw [if_pos (by omega), if_pos hlt]
      · have hrest : days * 24 + hour - (8760 + 24) = (days - 366) * 24 + hour := by omega
        rw [if_neg (by omega), if_neg hlt, hrest, ih]
    · simp only [if_neg hleap]
      by_cases hlt : days < 365
      · rw [if_pos (by omega), if_pos hlt]
      · have hrest : days * 24 + hour - 8760 = (days - 365) * 24 + hour := by omega
        rw [if_neg (by omega), if_neg hlt, hrest, ih]

theorem yearLoopDays_shift (fuel year days q : Nat) :
    yearLoopDays fuel (q * 4 + year) days =
      (q * 4 + (yearLoopDays fuel year days).1, (yearLoopDays fuel year days).2) := by
  induction fuel generalizing year days with
  | zero => rfl
  | succ fuel ih =>
    have hmod : (q * 4 + year) % 4 = year % 4 := by omega
    simp only [yearLoopDays, hmod, Nat.add_assoc, ih]
    split
    all_goals split <;> rfl

theorem dateOf_shift (year day q : Nat) : dateOf (q * 4 + year) day = dateOf year day := by
  have hmod : (q * 4 + year) % 4 = year % 4 := by omega
  rw [dateOf, dateOf, hmod]

def ofFirstYears (day : Nat) : Nat × Nat × Nat :=
  let (year, days) := yearLoopDays 4 70 day
  (year, dateOf year (days + 1))

theorem dayNumber_ofFirstYears : ∀ day ∈ List.range 1461,
    dayNumber ((ofFirstYears day).1 + 1900) ((ofFirstYears day).2.1 + 1) (ofFirstYears day).2.2 = day ∧
      70 ≤ (ofFirstYears day).1 ∧ (ofFirstYears day).1 ≤ 73 ∧ 1 ≤ (ofFirstYears day).2.2 := by
  decide +kernel

theorem leapDays (hfirst : 1900 ≤ year) (hlast : year ≤ 2099) :
    year / 4 - year / 100 + year / 400 = year / 4 - 15 := by
  by_cases hcentury : year < 2000
  · have h100 : year / 100 = 19 := by omega
    omega
  · have h100 : year / 100 = 20 := by omega
    omega

/-- Four years have 1461 days, from 1970 to 2099. -/
theorem dayNumber_shift {mon q : Nat} (hyear : 1970 ≤ year) (hlast : q * 4 + year ≤ 2099) (hfirst : 1 ≤ mon)
    (hday : 1 ≤ day) : dayNumber (q * 4 + year) mon day = q * 1461 + dayNumber year mon day := by
  unfold dayNumber
  by_cases hmon : mon ≤ 2
  · have hquarter : (q * 4 + year - 1) / 4 = q + (year - 1) / 4 := by omega
    simp only [if_pos hmon]
    rw [leapDays (by omega) (by omega), leapDays (by omega) (by omega), hquarter]
    omega
  · have hquarter : (q * 4 + year) / 4 = q + year / 4 := by omega
    simp only [if_neg hmon]
    omega

theorem gmtimeR_wday (time : Nat) : (gmtimeR time).wday = (time / 86400 + 4) % 7 := by
  have hday : time / 60 / 60 / 24 = time / 86400 := by omega
  rw [← hday]
  rfl

/-- The date of an instant is that of its day in the period of four years, with the periods in
front of it. -/
theorem gmtimeR_date (htime : time / 60 / 60 < 2 ^ 32) :
    (gmtimeR time).year = time / 86400 / 1461 * 4 + (ofFirstYears (time / 86400 % 1461)).1 ∧
      (gmtimeR time).mon = (ofFirstYears (time / 86400 % 1461)).2.1 ∧
      (gmtimeR time).mday = (ofFirstYears (time / 86400 % 1461)).2.2 := by
  have hperiod : time / 60 / 60 % 2 ^ 32 / (1461 * 24) = time / 86400 / 1461 := by
    omega
  have hhours : time / 60 / 60 % (1461 * 24) = time / 86400 % 1461 * 24 + time / 60 / 60 % 24 := by omega
  have hloop := yearLoop_hours 4 (time / 86400 / 1461 * 4 + 70) (time / 86400 % 1461)
    (Nat.mod_lt (time / 60 / 60) (by decide : 0 < 24))
  rw [yearLoopDays_shift] at hloop
  have hday (d : Nat) : (d * 24 + time / 60 / 60 % 24) / 24 = d := by omega
  simp only [gmtimeR, hperiod, hhours, hloop, hday, dateOf_shift, ofFirstYears, and_self]

theorem le_yearLoopDays (fuel year days : Nat) : year ≤ (yearLoopDays fuel year days).1 := by
  induction fuel generalizing year days with
  | zero => exact le_rfl
  | succ fuel ih =>
    rw [yearLoopDays]
    generalize (if year % 4 = 0 then 366 else 365) = dpery
    split
    · exact le_rfl
    · exact (Nat.le_succ year).trans (ih (year + 1) (days - dpery))

theorem le_ofFirstYears (hday : 365 ≤ day) : 71 ≤ (ofFirstYears day).1 := by
  have hrest : (ofFirstYears day).1 = (yearLoopDays 3 71 (day - 365)).1 := by
    rw [ofFirstYears, yearLoopDays]
    simp [Nat.not_lt.mpr hday]
  rw [hrest]
  exact le_yearLoopDays 3 71 (day - 365)

theorem gmtimeR_year_2023 (hfirst : 1672531200 ≤ time) (hlast : time < 2 ^ 32) :
    2023 - 1900 ≤ (gmtimeR time).year := by
  have hhours : time / 60 / 60 < 2 ^ 32 := by omega
  rw [(gmtimeR_date hhours).1]
  by_cases hperiod : time / 86400 / 1461 = 13
  · have hyear : 71 ≤ (ofFirstYears (time / 86400 % 1461)).1 := le_ofFirstYears (by omega)
    omega
  · have hyear : 70 ≤ (ofFirstYears (time / 86400 % 1461)).1 := le_yearLoopDays 4 70 _
    omega

/-- **The way back**: the date of an instant before 2098, with a time of day, is that time of the
same day. -/
theorem mktime_gmtimeR (htime : time < 32 * 1461 * 86400) (hour min sec : Nat) :
    mktime { gmtimeR time with hour := hour, min := min, sec := sec } =
      time / 86400 * 86400 + (hour * 3600 + min * 60 + sec) := by
  have hhours : time / 60 / 60 < 2 ^ 32 := by omega
  obtain ⟨hyear, hmon, hmday⟩ := gmtimeR_date hhours
  obtain ⟨hnumber, hfirst, hlast, hone⟩ := dayNumber_ofFirstYears (time / 86400 % 1461)
    (List.mem_range.mpr (Nat.mod_lt _ (by decide)))
  have hdays : dayNumber ((gmtimeR time).year + 1900) ((gmtimeR time).mon + 1) (gmtimeR time).mday =
      time / 86400 := by
    rw [hyear, hmon, hmday, Nat.add_assoc, dayNumber_shift (by omega) (by omega) (by omega) hone, hnumber]
    omega
  rw [mktime]
  dsimp only
  omega

end Qumios.Time
