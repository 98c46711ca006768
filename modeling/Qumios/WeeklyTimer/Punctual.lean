import Qumios.Lib.Alarm
import Qumios.WeeklyTimer.Timer

/-! When the weekly timer calls.

An event is due at the instants whose *local* time is its own, on the weekdays of the mask. The
timer is punctual if its callbacks have run at exactly those instants and its delay is the time
to the next of them. The code finds the next instant in local seconds and compares it with the
clock, so it is punctual where the two are one: at Greenwich (`add_punctual`), from 2023 to 2038,
with no two events at the same time. Anywhere else a call comes late or early by the offset
(`add_not_punctual`).

One `Alarm` stands behind it: a timer that was armed right stays so until its instant comes, and
the event that has just been called may skip the day, since its time of the day is now. -/
namespace Qumios.WeeklyTimer
open Time Alarm

/-! ### What is due -/

def Env.localTime (env : Env) (t : Nat) : Int := t + env.minuteswest * 60

def EventTime.timeOfDay (ev : EventTime) : Nat := ev.hour * 3600 + ev.minute * 60 + ev.second

def EventTime.InRange (ev : EventTime) : Prop := ev.hour < 24 ∧ ev.minute < 60 ∧ ev.second < 60

instance (ev : EventTime) : Decidable ev.InRange := inferInstanceAs (Decidable (_ ∧ _ ∧ _))

/-- Event `i` is enabled, and the local time at `t` is its time, on a weekday of the mask. -/
def Due (env : Env) (weekMark : BitVec 8) (timeGroup : List EventTime) (i t : Nat) : Prop :=
  weekMark.getLsbD 7 = true ∧ ∃ ev, timeGroup[i]? = some ev ∧ ev.en = true ∧
    env.localTime t % 86400 = ev.timeOfDay ∧
    weekMark.getLsbD ((env.localTime t / 86400 + 4) % 7).toNat = true

/-- The callbacks have run when their events were due and at no other instant, and the delay is
the time to the first instant at which one is. -/
structure Punctual (env : Env) (weekMark : BitVec 8) (timeGroup : List EventTime) (start : Nat) (s : State) :
    Prop where
  rung : Rung (Due env weekMark timeGroup) start s.clock s.calls
  armed : ∀ delay, s.loop.timer = some delay ↔
    ∃ next, IsLeast (Ahead (Due env weekMark timeGroup) s.clock) next ∧ delay = (next - s.clock) * 1000

/-- What a caller hands over: times of the day, and at least one weekday. -/
structure Schedule (weekMark : BitVec 8) (timeGroup : List EventTime) : Prop where
  range : ∀ ev ∈ timeGroup, ev.InRange
  day : ∃ day < 7, weekMark.getLsbD day = true

/-- Local time is the clock's, the bytes behind `g_now` are zero, no two events ask for one time of
the day, and no place in the group is taken for "none". -/
structure Regular (env : Env) (timeGroup : List EventTime) : Prop where
  zone : env.minuteswest = 0
  behind : ∀ now, env.behind now = 0
  apart : timeGroup.Pairwise fun ev ev' => ev.en = true → ev'.en = true → ev.timeOfDay ≠ ev'.timeOfDay
  places : timeGroup.length ≤ nearestInf

/-! ### One event -/

/-- At `t` it is that time of the day, on a weekday of the mask. -/
def Strikes (weekMark : BitVec 8) (timeOfDay t : Nat) : Prop :=
  t % 86400 = timeOfDay ∧ weekMark.getLsbD ((t / 86400 + 4) % 7) = true

section Event
variable {env : Env} {weekMark : BitVec 8} {timeGroup : List EventTime} {loop : Loop} {now timeOfDay : Nat}
  {i t : Nat} {ev : EventTime}

theorem EventTime.InRange.timeOfDay_lt (hrange : ev.InRange) : ev.timeOfDay < 86400 := by
  obtain ⟨hhour, hminute, hsecond⟩ := hrange
  unfold EventTime.timeOfDay
  omega

theorem Regular.due_iff (hreg : Regular env timeGroup) :
    Due env weekMark timeGroup i t ↔ weekMark.getLsbD 7 = true ∧
      ∃ ev, timeGroup[i]? = some ev ∧ ev.en = true ∧ Strikes weekMark ev.timeOfDay t := by
  have hlocal : env.localTime t = t := by
    rw [Env.localTime, hreg.zone]
    omega
  have hweekday : (((t : Int) / 86400 + 4) % 7).toNat = (t / 86400 + 4) % 7 := by omega
  have hday (n : Nat) : ((t : Int) % 86400 = n) ↔ t % 86400 = n := by omega
  simp only [Due, hlocal, hweekday, hday, Strikes]

theorem Regular.localtime (hreg : Regular env timeGroup) (hnow : now < 2 ^ 32) :
    localtimeR env.minuteswest (now + env.behind now * 2 ^ 32) = gmtimeR now := by
  rw [hreg.zone, hreg.behind, Nat.zero_mul, Nat.add_zero, localtimeR_zero (by omega)]

/-- On day `day`, a weekday of the mask, the event is still to come. -/
def ComesOn (weekMark : BitVec 8) (now timeOfDay day : Nat) : Prop :=
  weekMark.getLsbD ((day + 4) % 7) = true ∧ now < day * 86400 + timeOfDay

/-- The search takes the first day on which the event is still to come, if there is one among the
days it looks at. -/
theorem dayLoop_first {day : Nat} (rounds dayDiff : Nat)
    (hfit : (day + dayDiff + rounds) * 86400 + timeOfDay ≤ 2 ^ 32)
    (hex : ∃ d, dayDiff ≤ d ∧ d < dayDiff + rounds ∧ ComesOn weekMark now timeOfDay (day + d)) :
    ∃ d < dayDiff + rounds, ComesOn weekMark now timeOfDay (day + d) ∧
      (∀ e, dayDiff ≤ e → ComesOn weekMark now timeOfDay (day + e) → d ≤ e) ∧
      dayLoop weekMark now (day * 86400 + timeOfDay) rounds ((day + dayDiff + 4) % 7) dayDiff =
        (day + d) * 86400 + timeOfDay := by
  induction rounds generalizing dayDiff with
  | zero =>
    omega
  | succ rounds ih =>
    have hsum : (day * 86400 + timeOfDay + secPerDay * dayDiff) % 2 ^ 32 = (day + dayDiff) * 86400 + timeOfDay := by
      unfold secPerDay
      omega
    have hdays : day + (dayDiff + 1) + rounds = day + dayDiff + (rounds + 1) := by omega
    rw [dayLoop, hsum]
    by_cases htoday : ComesOn weekMark now timeOfDay (day + dayDiff)
    · rw [if_pos (show _ ∧ _ from htoday)]
      exact ⟨dayDiff, by omega, htoday, fun e hle _ => hle, rfl⟩
    · have hlater {d : Nat} (hle : dayDiff ≤ d) (hd : ComesOn weekMark now timeOfDay (day + d)) : dayDiff + 1 ≤ d := by
        rcases Nat.lt_or_eq_of_le hle with hlt | rfl
        · exact hlt
        · exact absurd hd htoday
      have hweekday : ((day + dayDiff + 4) % 7 + 1) % 7 = (day + (dayDiff + 1) + 4) % 7 := by omega
      obtain ⟨d, hle, hlt, hd⟩ := hex
      rw [← hdays] at hfit
      obtain ⟨d', hlt', hd', hfirst, hloop⟩ := ih (dayDiff + 1) hfit ⟨d, hlater hle hd, by omega, hd⟩
      have hnext := (congrArg (dayLoop weekMark now _ rounds · _) hweekday).trans hloop
      rw [if_neg (show ¬ (_ ∧ _) from htoday)]
      exact ⟨d', by omega, hd', fun e he hcomes => hfirst e (hlater he hcomes) hcomes, hnext⟩

theorem comesOn_within (hday : ∃ day < 7, weekMark.getLsbD day = true) (now timeOfDay : Nat) :
    ∃ d, 1 ≤ d ∧ d ≤ 7 ∧ ComesOn weekMark now timeOfDay (now / 86400 + d) := by
  obtain ⟨weekday, hlt, hmark⟩ := hday
  refine ⟨1 + (weekday + 7 - (now / 86400 + 5) % 7) % 7, by omega, by omega, ?_, by omega⟩
  have hsame : (now / 86400 + (1 + (weekday + 7 - (now / 86400 + 5) % 7) % 7) + 4) % 7 = weekday := by omega
  rw [hsame]
  exact hmark

/-- The search of a day and the seven days behind it finds the next instant at which the event
strikes. It may begin tomorrow if the event does not strike today any more. -/
theorem dayLoop_isLeast (rounds dayDiff : Nat) (hday : ∃ day < 7, weekMark.getLsbD day = true)
    (htime : timeOfDay < 86400) (hfit : now + 8 * 86400 < nearestInf) (hrounds : dayDiff + rounds = 8)
    (hskip : dayDiff = 0 ∨ dayDiff = 1 ∧ timeOfDay ≤ now % 86400) :
    IsLeast {t | now < t ∧ Strikes weekMark timeOfDay t}
        (dayLoop weekMark now (now / 86400 * 86400 + timeOfDay) rounds ((now / 86400 + dayDiff + 4) % 7) dayDiff) ∧
      dayLoop weekMark now (now / 86400 * 86400 + timeOfDay) rounds ((now / 86400 + dayDiff + 4) % 7) dayDiff <
        now + 8 * 86400 := by
  unfold nearestInf at hfit
  obtain ⟨d, hone, hweek, hcomes⟩ := comesOn_within hday now timeOfDay
  obtain ⟨d', hlt, ⟨hmark, hnow⟩, hfirst, hloop⟩ :=
    dayLoop_first rounds dayDiff (by omega) ⟨d, by omega, by omega, hcomes⟩
  rw [hloop]
  have hdiv (n : Nat) : (n * 86400 + timeOfDay) / 86400 = n := by omega
  have hmod (n : Nat) : (n * 86400 + timeOfDay) % 86400 = timeOfDay := by omega
  refine ⟨⟨⟨hnow, hmod _, by rwa [hdiv]⟩, ?_⟩, by omega⟩
  rintro t ⟨hlater, htod, hstrike⟩
  -- `t` lies on a day that the search comes to, or on today when that is left out
  have ht : t = (now / 86400 + (t / 86400 - now / 86400)) * 86400 + timeOfDay := by omega
  have hdays : now / 86400 + (t / 86400 - now / 86400) = t / 86400 := by omega
  have hd := hfirst (t / 86400 - now / 86400) (by omega) ⟨by rwa [hdays], Nat.lt_of_lt_of_eq hlater ht⟩
  omega

theorem mktime_event (hnow : now < nearestInf) (hrange : ev.InRange) :
    mktime (ev.on (gmtimeR now)) % 2 ^ 32 = now / 86400 * 86400 + ev.timeOfDay := by
  have hlt := hrange.timeOfDay_lt
  unfold nearestInf at hnow
  rw [EventTime.on, mktime_gmtimeR (by omega), ← EventTime.timeOfDay, Nat.mod_eq_of_lt (by omega)]

/-- **What the body of the loop finds for an event is its next instant**, if the event it skips
today is not due today any more. -/
theorem eventLoc_isLeast (hday : ∃ day < 7, loop.weekMark.getLsbD day = true) (hrange : ev.InRange)
    (hweekly : loop.weeklyLoop = true) (hfit : now + 8 * 86400 < nearestInf)
    (hskip : i = loop.nearestIdx → ev.timeOfDay ≤ now % 86400) :
    IsLeast {t | now < t ∧ Strikes loop.weekMark ev.timeOfDay t} (eventLoc loop now (gmtimeR now) i ev) ∧
      eventLoc loop now (gmtimeR now) i ev < now + 8 * 86400 := by
  have htime := hrange.timeOfDay_lt
  have hloc := mktime_event (Nat.lt_of_le_of_lt (Nat.le_add_right now (8 * 86400)) hfit) hrange
  simp only [eventLoc, hloc, hweekly, if_true, gmtimeR_wday]
  by_cases hold : i = loop.nearestIdx
  · have hweekday : ((now / 86400 + 4) % 7 + 1) % 7 = (now / 86400 + 1 + 4) % 7 := by omega
    rw [if_pos hold, hweekday]
    exact dayLoop_isLeast 7 1 hday htime hfit rfl (.inr ⟨rfl, hskip hold⟩)
  · rw [if_neg hold]
    exact dayLoop_isLeast 8 0 hday htime hfit rfl (.inl rfl)

end Event

/-! ### The group -/

/-- The loop over the group ends with the least instant of the enabled events, if that is less
than what it began with. -/
theorem groupLoop_least (loc : Nat → EventTime → Nat) (i : Nat) (group : List EventTime) (nearest : Nat × Nat) :
    (groupLoop loc i group nearest).1 ≤ nearest.1 ∧
      (∀ k ev, group[k]? = some ev → ev.en = true → (groupLoop loc i group nearest).1 ≤ loc (i + k) ev) ∧
      (groupLoop loc i group nearest = nearest ∨
        ∃ k ev, group[k]? = some ev ∧ ev.en = true ∧ groupLoop loc i group nearest = (loc (i + k) ev, i + k)) := by
  induction group generalizing i nearest with
  | nil => exact ⟨le_rfl, fun k ev hk => by simp at hk, .inl rfl⟩
  | cons ev rest ih =>
    have hshift (k : Nat) : i + 1 + k = i + (k + 1) := by omega
    rw [groupLoop]
    by_cases htake : ev.en = true ∧ loc i ev < nearest.1
    · rw [if_pos htake]
      obtain ⟨hle, hall, hone⟩ := ih (i + 1) (loc i ev, i)
      refine ⟨by omega, ?_, .inr ?_⟩
      · intro k ev' hk hen
        cases k with
        | zero =>
          cases hk
          exact hle
        | succ k =>
          rw [← hshift k]
          exact hall k ev' hk hen
      · rcases hone with heq | ⟨k, ev', hk, hen, heq⟩
        · exact ⟨0, ev, rfl, htake.1, heq⟩
        · exact ⟨k + 1, ev', hk, hen, by rw [heq, hshift]⟩
    · rw [if_neg htake]
      obtain ⟨hle, hall, hone⟩ := ih (i + 1) nearest
      refine ⟨hle, ?_, ?_⟩
      · intro k ev' hk hen
        cases k with
        | zero =>
          cases hk
          exact hle.trans (Nat.le_of_not_lt fun hlt => htake ⟨hen, hlt⟩)
        | succ k =>
          rw [← hshift k]
          exact hall k ev' hk hen
      · rcases hone with heq | ⟨k, ev', hk, hen, heq⟩
        · exact .inl heq
        · exact .inr ⟨k + 1, ev', hk, hen, by rw [heq, hshift]⟩

section Update
variable {env : Env} {loop : Loop} {now : Nat}

@[simp] theorem weeklyTimerUpdate_weeklyLoop : (weeklyTimerUpdate env now loop).weeklyLoop = loop.weeklyLoop := by
  simp only [weeklyTimerUpdate, getNearest]
  split <;> rfl

@[simp] theorem weeklyTimerUpdate_weekMark : (weeklyTimerUpdate env now loop).weekMark = loop.weekMark := by
  simp only [weeklyTimerUpdate, getNearest]
  split <;> rfl

@[simp] theorem weeklyTimerUpdate_timeGroup : (weeklyTimerUpdate env now loop).timeGroup = loop.timeGroup := by
  simp only [weeklyTimerUpdate, getNearest]
  split <;> rfl

theorem weeklyTimerUpdate_stops (hnearest : (getNearest env now loop).1 = nearestInf) :
    (weeklyTimerUpdate env now loop).timer = none := by
  simp only [weeklyTimerUpdate, hnearest, ne_eq, not_true_eq_false, false_and, if_false]

theorem weeklyTimerUpdate_arms {t : Nat} (hnearest : (getNearest env now loop).1 = t) (hlater : now < t)
    (hsoon : t < now + 8 * 86400) (hfit : now + 8 * 86400 < nearestInf) :
    (weeklyTimerUpdate env now loop).timer = some ((t - now) * 1000) := by
  have hne : t ≠ nearestInf := by omega
  have hdelay : (2 ^ 32 + t - now) % 2 ^ 32 = t - now := by omega
  have hms : (t - now) * 1000 % 2 ^ 32 = (t - now) * 1000 := by omega
  have hpos : 0 < t - now := by omega
  simp only [weeklyTimerUpdate, hnearest, hdelay, hms]
  rw [if_pos ⟨hne, hpos⟩]

/-- **The nearest event is the one that is due next**, if the event it was before is not due later
today; with nothing enabled there is none. -/
theorem getNearest_next (hschedule : Schedule loop.weekMark loop.timeGroup) (hreg : Regular env loop.timeGroup)
    (hweekly : loop.weeklyLoop = true) (hfit : now + 8 * 86400 < nearestInf)
    (hskip : ∀ ev, loop.timeGroup[loop.nearestIdx]? = some ev → ev.timeOfDay ≤ now % 86400) :
    (Ahead (Due env loop.weekMark loop.timeGroup) now = ∅ ∧ (getNearest env now loop).1 = nearestInf) ∨
      ∃ i t, IsSet (Due env loop.weekMark loop.timeGroup) now (some (i, t)) ∧ t < now + 8 * 86400 ∧
        (getNearest env now loop).1 = t ∧ (getNearest env now loop).2.nearestIdx = i := by
  by_cases hmask : loop.weekMark.getLsbD 7 = false
  · refine .inl ⟨Set.eq_empty_iff_forall_notMem.mpr ?_, by rw [getNearest, if_pos hmask]⟩
    rintro t ⟨-, i, hon, -⟩
    rw [hmask] at hon
    cases hon
  · have hon : loop.weekMark.getLsbD 7 = true := by simpa using hmask
    have hnow : now < 2 ^ 32 := by
      unfold nearestInf at hfit
      omega
    have hloc {i : Nat} {ev : EventTime} (hev : loop.timeGroup[i]? = some ev) :=
      eventLoc_isLeast (i := i) hschedule.day (hschedule.range ev (List.mem_of_getElem? hev)) hweekly hfit
        (fun hold => hskip ev (hold ▸ hev))
    obtain ⟨-, hall, hone⟩ := groupLoop_least (eventLoc loop now (gmtimeR now)) 0 loop.timeGroup
      (nearestInf, loop.nearestIdx)
    simp only [Nat.zero_add] at hall hone
    simp only [getNearest, hreg.localtime hnow, if_neg hmask]
    rcases hone with hnone | ⟨k, ev, hev, hen, hsome⟩
    · -- every enabled event has an instant before `nearestInf`, so there is none
      refine .inl ⟨Set.eq_empty_iff_forall_notMem.mpr ?_, by rw [hnone]⟩
      rintro t ⟨-, i, hdue⟩
      obtain ⟨-, ev, hev, hen, -⟩ := hreg.due_iff.mp hdue
      have hle := hall i ev hev hen
      have hlt := (hloc hev).2
      rw [hnone] at hle
      exact absurd (hle.trans_lt hlt) (Nat.lt_asymm hfit)
    · obtain ⟨⟨⟨hlater, hstrikes⟩, -⟩, hsoon⟩ := hloc hev
      rw [hsome] at hall ⊢
      have hdue : Due env loop.weekMark loop.timeGroup k (eventLoc loop now (gmtimeR now) k ev) :=
        hreg.due_iff.mpr ⟨hon, ev, hev, hen, hstrikes⟩
      refine .inr ⟨k, _, ⟨hdue, ⟨hlater, k, hdue⟩, ?_⟩, hsoon, rfl, rfl⟩
      rintro t ⟨ht, i, hother⟩
      obtain ⟨-, ev', hev', hen', hstrikes'⟩ := hreg.due_iff.mp hother
      exact (hall i ev' hev' hen').trans ((hloc hev').1.2 ⟨ht, hstrikes'⟩)

/-- The loop's hand: the event in `nearestIdx`, at the instant its timer runs out. -/
def Loop.Shows (loop : Loop) (now : Nat) : Option (Nat × Nat) → Prop
  | none => loop.timer = none
  | some (i, t) => loop.nearestIdx = i ∧ loop.timer = some ((t - now) * 1000)

theorem weeklyTimerUpdate_sets (hschedule : Schedule loop.weekMark loop.timeGroup)
    (hreg : Regular env loop.timeGroup) (hweekly : loop.weeklyLoop = true)
    (hfit : now + 8 * 86400 < nearestInf)
    (hskip : ∀ ev, loop.timeGroup[loop.nearestIdx]? = some ev → ev.timeOfDay ≤ now % 86400) :
    ∃ hand, IsSet (Due env loop.weekMark loop.timeGroup) now hand ∧
      (weeklyTimerUpdate env now loop).Shows now hand := by
  rcases getNearest_next hschedule hreg hweekly hfit hskip with ⟨hnothing, hinf⟩ | ⟨i, t, hset, hsoon, htm, hidx⟩
  · exact ⟨none, hnothing, weeklyTimerUpdate_stops hinf⟩
  · exact ⟨some (i, t), hset, hidx, weeklyTimerUpdate_arms htm hset.2.1.1 hsoon hfit⟩

end Update

/-! ### Whole runs -/

section Runs
variable {env : Env} {weekMark : BitVec 8} {timeGroup : List EventTime} {start : Nat} {s : State}

/-- What holds every second: the settings are those of the caller, the calls so far are those that
were due, and the timer is armed for the next. -/
structure Keeps (env : Env) (weekMark : BitVec 8) (timeGroup : List EventTime) (start : Nat) (s : State) :
    Prop where
  weekly : s.loop.weeklyLoop = true
  mask : s.loop.weekMark = weekMark
  group : s.loop.timeGroup = timeGroup
  began : start ≤ s.clock
  rung : Rung (Due env weekMark timeGroup) start s.clock s.calls
  hand : ∃ hand, IsSet (Due env weekMark timeGroup) s.clock hand ∧ s.loop.Shows s.clock hand

theorem Regular.due_unique {i j t : Nat} (hreg : Regular env timeGroup) (hi : Due env weekMark timeGroup i t)
    (hj : Due env weekMark timeGroup j t) : j = i := by
  obtain ⟨-, ev, hev, hen, htime, -⟩ := hreg.due_iff.mp hi
  obtain ⟨-, ev', hev', hen', htime', -⟩ := hreg.due_iff.mp hj
  obtain ⟨hilt, rfl⟩ := List.getElem?_eq_some_iff.mp hev
  obtain ⟨hjlt, rfl⟩ := List.getElem?_eq_some_iff.mp hev'
  have hapart := List.pairwise_iff_getElem.mp hreg.apart
  rcases Nat.lt_trichotomy i j with hlt | heq | hgt
  · exact absurd (htime.symm.trans htime') (hapart i j hilt hjlt hlt hen hen')
  · exact heq.symm
  · exact absurd (htime'.symm.trans htime) (hapart j i hjlt hilt hgt hen' hen)

theorem State.now_of_fit (hfit : s.clock + 8 * 86400 < nearestInf) : s.now = s.clock := by
  unfold nearestInf at hfit
  exact Nat.mod_eq_of_lt (by omega)

section
variable (hschedule : Schedule weekMark timeGroup) (hreg : Regular env timeGroup)
include hschedule hreg

/-- The instant has come: the callback runs, and the hand goes to the next event. -/
theorem Keeps.callback {i : Nat} (hfit : s.clock + 8 * 86400 < nearestInf) (hweekly : s.loop.weeklyLoop = true)
    (hmask : s.loop.weekMark = weekMark) (hgroup : s.loop.timeGroup = timeGroup) (hbegan : start ≤ s.clock)
    (hidx : s.loop.nearestIdx = i) (hdue : Due env weekMark timeGroup i s.clock)
    (hrung : Rung (Due env weekMark timeGroup) start s.clock ((i, s.clock) :: s.calls)) :
    Keeps env weekMark timeGroup start (weeklyTimerCb env s) := by
  subst hmask hgroup hidx
  have hskip (ev : EventTime) (hev : s.loop.timeGroup[s.loop.nearestIdx]? = some ev) :
      ev.timeOfDay ≤ s.clock % 86400 := by
    obtain ⟨-, ev', hev', -, htime, -⟩ := hreg.due_iff.mp hdue
    obtain rfl : ev' = ev := Option.some.inj (hev'.symm.trans hev)
    exact htime.ge
  have hcb : weeklyTimerCb env s =
      { s with
        calls := (s.loop.nearestIdx, s.clock) :: s.calls
        loop := weeklyTimerUpdate env s.clock s.loop } := by
    simp only [weeklyTimerCb, if_pos hweekly, State.now_of_fit hfit]
  rw [hcb]
  exact
    { weekly := by rw [weeklyTimerUpdate_weeklyLoop, hweekly]
      mask := weeklyTimerUpdate_weekMark
      group := weeklyTimerUpdate_timeGroup
      began := hbegan
      rung := hrung
      hand := weeklyTimerUpdate_sets hschedule hreg hweekly hfit hskip }

theorem Keeps.tick (h : Keeps env weekMark timeGroup start s) (hfit : s.clock + 1 + 8 * 86400 < nearestInf) :
    Keeps env weekMark timeGroup start (tick env s) := by
  obtain ⟨hand, hset, hshows⟩ := h.hand
  cases hand with
  | none =>
    have htick : WeeklyTimer.tick env s = { s with clock := s.clock + 1 } := by
      simp only [WeeklyTimer.tick, show s.loop.timer = none from hshows]
    rw [htick]
    exact
      { weekly := h.weekly
        mask := h.mask
        group := h.group
        began := Nat.le_succ_of_le h.began
        rung := h.rung.quiet (hset.quiet fun _ _ hnone => by cases hnone)
        hand := ⟨none, hset.idle, hshows⟩ }
  | some pair =>
    obtain ⟨i, t⟩ := pair
    obtain ⟨hidx, htimer⟩ := hshows
    by_cases hnow : t = s.clock + 1
    · subst hnow
      have htick : WeeklyTimer.tick env s =
          weeklyTimerCb env { s with clock := s.clock + 1, loop := { s.loop with timer := none } } := by
        simp only [WeeklyTimer.tick, htimer]
        rw [if_pos (by omega)]
      rw [htick]
      exact .callback hschedule hreg hfit h.weekly h.mask h.group (Nat.le_succ_of_le h.began) hidx hset.1
        (h.rung.ring h.began hset.1 fun j hj => hreg.due_unique hset.1 hj)
    · have hlater := hset.2.1.1
      have htick : WeeklyTimer.tick env s =
          { s with
            clock := s.clock + 1
            loop := { s.loop with timer := some ((t - s.clock) * 1000 - 1000) } } := by
        simp only [WeeklyTimer.tick, htimer]
        rw [if_neg (by omega)]
      rw [htick]
      exact
        { weekly := h.weekly
          mask := h.mask
          group := h.group
          began := Nat.le_succ_of_le h.began
          rung := h.rung.quiet (hset.quiet fun j u hhand => by
            cases hhand
            exact hnow)
          hand := ⟨some (i, t), hset.wait hnow, hidx, congrArg some (by dsimp only; omega)⟩ }
end

theorem tick_clock (env : Env) (s : State) : (tick env s).clock = s.clock + 1 := by
  simp only [tick]
  split
  · rfl
  · split <;> rfl

theorem ticks_clock (env : Env) (s : State) (n : Nat) : ((tick env)^[n] s).clock = s.clock + n := by
  induction n with
  | zero => rfl
  | succ n ih => rw [Function.iterate_succ_apply', tick_clock, ih, Nat.add_assoc]

theorem Keeps.ticks (hschedule : Schedule weekMark timeGroup) (hreg : Regular env timeGroup)
    (h : Keeps env weekMark timeGroup start s) (n : Nat) (hfit : s.clock + n + 8 * 86400 < nearestInf) :
    Keeps env weekMark timeGroup start ((WeeklyTimer.tick env)^[n] s) := by
  induction n with
  | zero => exact h
  | succ n ih =>
    rw [Function.iterate_succ_apply']
    refine (ih (by omega)).tick hschedule hreg ?_
    rw [ticks_clock]
    omega

theorem Keeps.punctual (h : Keeps env weekMark timeGroup start s) : Punctual env weekMark timeGroup start s where
  rung := h.rung
  armed delay := by
    obtain ⟨hand, hset, hshows⟩ := h.hand
    cases hand with
    | none =>
      rw [show s.loop.timer = none from hshows]
      constructor
      · intro hsome
        cases hsome
      · rintro ⟨next, hleast, -⟩
        rw [show Ahead (Due env weekMark timeGroup) s.clock = ∅ from hset] at hleast
        exact absurd hleast.1 (Set.notMem_empty next)
    | some pair =>
      rw [hshows.2, Option.some.injEq]
      constructor
      · rintro rfl
        exact ⟨pair.2, hset.2, rfl⟩
      · rintro ⟨next, hleast, rfl⟩
        rw [hset.2.unique hleast]

/-- An update with nothing armed before is the beginning of such a run. -/
theorem Keeps.begin (loop : Loop) (start : Nat) (hschedule : Schedule loop.weekMark loop.timeGroup)
    (hreg : Regular env loop.timeGroup) (hweekly : loop.weeklyLoop = true) (hidx : loop.nearestIdx = nearestInf)
    (hfit : start + 8 * 86400 < nearestInf) :
    Keeps env loop.weekMark loop.timeGroup start
      { clock := start, loop := weeklyTimerUpdate env start loop, calls := [] } where
  weekly := by rw [weeklyTimerUpdate_weeklyLoop, hweekly]
  mask := weeklyTimerUpdate_weekMark
  group := weeklyTimerUpdate_timeGroup
  began := le_rfl
  rung := .fresh _ start
  hand := by
    refine weeklyTimerUpdate_sets hschedule hreg hweekly hfit fun ev hev => ?_
    rw [hidx, List.getElem?_eq_none hreg.places] at hev
    cases hev

end Runs

/-- **At Greenwich the weekly timer is punctual**, from 2023 to eight days before the end of the
31-bit seconds, for events at different times of the day. -/
theorem add_punctual {env : Env} {weekMark : BitVec 8} {timeGroup : List EventTime} {start n : Nat}
    (hschedule : Schedule weekMark timeGroup) (hreg : Regular env timeGroup) (hfirst : 1672531200 ≤ start)
    (hlast : start + n + 8 * 86400 < nearestInf) :
    Punctual env weekMark timeGroup start ((tick env)^[n] (weeklyTimerAdd env true weekMark timeGroup start)) := by
  have hnow : start < 2 ^ 32 := by
    unfold nearestInf at hlast
    omega
  have hyear : 2023 - 1900 ≤ (localtimeR env.minuteswest start).year := by
    rw [hreg.zone, localtimeR_zero (by omega)]
    exact gmtimeR_year_2023 hfirst hnow
  rw [weeklyTimerAdd, Nat.mod_eq_of_lt hnow, if_pos hyear]
  have hbegin := Keeps.begin ⟨true, weekMark, timeGroup, nearestInf, nearestInf, none⟩ start hschedule hreg rfl rfl
    (by omega)
  exact (hbegin.ticks hschedule hreg n hlast).punctual

/-- Tuesdays and Fridays at six and at noon, for two weeks from 2024 on. -/
theorem add_punctual_two_weeks :
    let noon : EventTime := ⟨12, 0, 0, true⟩
    let morning : EventTime := ⟨6, 30, 0, true⟩
    Punctual ⟨0, fun _ => 0⟩ 0xA4#8 [noon, morning] 1704067200
      ((tick ⟨0, fun _ => 0⟩)^[1209600] (weeklyTimerAdd ⟨0, fun _ => 0⟩ true 0xA4#8 [noon, morning] 1704067200)) := by
  exact add_punctual ⟨by decide, by decide⟩ ⟨rfl, fun _ => rfl, by decide, by decide⟩ (by decide) (by decide)

/-- Eight hours east of Greenwich, as the device is set by default, an event at noon: at local noon
nothing is called. -/
theorem add_not_punctual :
    ¬ ∀ (env : Env) (weekMark : BitVec 8) (timeGroup : List EventTime) (start n : Nat),
      Schedule weekMark timeGroup →
      Punctual env weekMark timeGroup start
        ((tick env)^[n] (weeklyTimerAdd env true weekMark timeGroup start)) := by
  intro hall
  have hdue : Due ⟨480, fun _ => 0⟩ 0xFF#8 [⟨12, 0, 0, true⟩] 0 1699934400 :=
    ⟨by decide, ⟨12, 0, 0, true⟩, rfl, rfl, by decide, by decide⟩
  have hpunctual := hall ⟨480, fun _ => 0⟩ 0xFF#8 [⟨12, 0, 0, true⟩] 1699934399 1 ⟨by decide, by decide⟩
  have hcalls : (tick ⟨480, fun _ => 0⟩ (weeklyTimerAdd ⟨480, fun _ => 0⟩ true 0xFF#8 [⟨12, 0, 0, true⟩]
      1699934399)).calls = [] := by decide +kernel
  have hmem := (hpunctual.rung.mem 0 1699934400).mpr ⟨by decide, by decide, hdue⟩
  cases hmem

/-! ### Started -/

/-- A start enables everything, and the timer is punctual from then on. -/
theorem start_punctual {env : Env} {s : State} {n : Nat} (hweekly : s.loop.weeklyLoop = true)
    (hcalls : s.calls = [])
    (hschedule : Schedule (s.loop.weekMark ||| 0x80#8) (s.loop.timeGroup.map fun ev => { ev with en := true }))
    (hreg : Regular env (s.loop.timeGroup.map fun ev => { ev with en := true }))
    (hlast : s.clock + n + 8 * 86400 < nearestInf) :
    Punctual env (s.loop.weekMark ||| 0x80#8) (s.loop.timeGroup.map fun ev => { ev with en := true }) s.clock
      ((tick env)^[n] (weeklyTimerStart env s)) := by
  have hbegin := Keeps.begin (s.loop.switch true (s.loop.weekMark ||| 0x80#8)) s.clock hschedule hreg hweekly rfl
    (by omega)
  have hstart : weeklyTimerStart env s =
      { clock := s.clock
        loop := weeklyTimerUpdate env s.clock (s.loop.switch true (s.loop.weekMark ||| 0x80#8))
        calls := [] } := by
    rw [weeklyTimerStart, State.now_of_fit (by omega), hcalls]
  rw [hstart]
  exact (hbegin.ticks hschedule hreg n hlast).punctual

theorem start_punctual_noon :
    Punctual ⟨0, fun _ => 0⟩ 0xA4#8 [⟨12, 0, 0, true⟩] 1704067200
      ((tick ⟨0, fun _ => 0⟩)^[604800] (weeklyTimerStart ⟨0, fun _ => 0⟩
        ⟨1704067200, ⟨true, 36, [⟨12, 0, 0, false⟩], 0, 0, none⟩, []⟩)) :=
  start_punctual (s := ⟨1704067200, ⟨true, 36, [⟨12, 0, 0, false⟩], 0, 0, none⟩, []⟩) rfl rfl
    ⟨by decide, by decide⟩ ⟨rfl, fun _ => rfl, by decide, by decide⟩ (by decide)

end Qumios.WeeklyTimer
