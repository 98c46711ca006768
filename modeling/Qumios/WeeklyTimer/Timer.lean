import Qumios.Time.Calendar

/-! The weekly timer of `weekly_timer.c`: a group of times of the day, a mask of weekdays, and one
software timer that is armed for whichever time comes next.

`weekly_timer_loop_get_nearest` takes the date from the local time and the seconds it compares
from the clock. The clock goes in seconds, and the software timer and it are exact: `tick` is one
second of both, and what the callbacks were called with stands in `calls`, newest first. -/
namespace Qumios.WeeklyTimer
open Time

def secPerDay : Nat := 86400

/-- `TIMER_NEAREST_INF`. -/
def nearestInf : Nat := 2147483647

/-- What the code reads from outside. -/
structure Env where
  /-- `g_qm_timezone.minuteswest`; local time is ahead of the clock by it. -/
  minuteswest : Int
  /-- The four bytes behind the local `g_now`, by the time it holds: it has four bytes itself, and
  `qm_localtime_r` reads eight. -/
  behind : Nat → Nat

/-- `event_time_t`; the callback is known by the place in the group. -/
structure EventTime where
  hour : Nat
  minute : Nat
  second : Nat
  en : Bool
  deriving DecidableEq, Repr

/-- `event_timer_loop_t`. Bit 7 of `weekMark` is `enable`, the bits below are the weekdays from
Sunday on; `timer` holds the milliseconds left while the software timer is started. -/
structure Loop where
  weeklyLoop : Bool
  weekMark : BitVec 8
  timeGroup : List EventTime
  nearestTm : Nat
  nearestIdx : Nat
  timer : Option Nat
  deriving DecidableEq, Repr

/-! ### The nearest event -/

/-- The `while` over the days, with the rounds left to it. -/
def dayLoop (weekMark : BitVec 8) (now timeLoc : Nat) : Nat → Nat → Nat → Nat
  | 0, _, _ => timeLoc
  | rounds + 1, weekDay, dayDiff =>
    if weekMark.getLsbD weekDay = true ∧ now < (timeLoc + secPerDay * dayDiff) % 2 ^ 32 then
      (timeLoc + secPerDay * dayDiff) % 2 ^ 32
    else dayLoop weekMark now timeLoc rounds ((weekDay + 1) % 7) (dayDiff + 1)

/-- The time of an event, on the day of `timeinfo`. -/
def EventTime.on (ev : EventTime) (timeinfo : Tm) : Tm :=
  { timeinfo with hour := ev.hour, min := ev.minute, sec := ev.second }

/-- What one round of the `for` makes of an event. The event that was armed last begins its
search on the next day. -/
def eventLoc (loop : Loop) (now : Nat) (timeinfo : Tm) (i : Nat) (ev : EventTime) : Nat :=
  let timeLoc := mktime (ev.on timeinfo) % 2 ^ 32
  if loop.weeklyLoop then
    if i = loop.nearestIdx then dayLoop loop.weekMark now timeLoc 7 ((timeinfo.wday + 1) % 7) 1
    else dayLoop loop.weekMark now timeLoc 8 timeinfo.wday 0
  else if now < timeLoc then timeLoc
  else (timeLoc + secPerDay) % 2 ^ 32

/-- The `for` over the group, `loc` being its body: the least instant, and the first event with it. -/
def groupLoop (loc : Nat → EventTime → Nat) : Nat → List EventTime → Nat × Nat → Nat × Nat
  | _, [], nearest => nearest
  | i, ev :: rest, nearest =>
    groupLoop loc (i + 1) rest (if ev.en = true ∧ loc i ev < nearest.1 then (loc i ev, i) else nearest)

/-- `weekly_timer_loop_get_nearest`. -/
def getNearest (env : Env) (now : Nat) (loop : Loop) : Nat × Loop :=
  let timeinfo := localtimeR env.minuteswest (now + env.behind now * 2 ^ 32)
  if loop.weekMark.getLsbD 7 = false then (nearestInf, loop)
  else
    let nearest := groupLoop (eventLoc loop now timeinfo) 0 loop.timeGroup (nearestInf, loop.nearestIdx)
    (nearest.1, { loop with nearestTm := nearest.1, nearestIdx := nearest.2 })

/-- `weekly_timer_update`. -/
def weeklyTimerUpdate (env : Env) (now : Nat) (loop : Loop) : Loop :=
  let (tmLoc, loop) := getNearest env now loop
  let delay := (2 ^ 32 + tmLoc - now) % 2 ^ 32
  { loop with timer := if tmLoc ≠ nearestInf ∧ 0 < delay then some (delay * 1000 % 2 ^ 32) else none }

/-! ### The timer in its surroundings -/

structure State where
  clock : Nat
  loop : Loop
  /-- The events whose callback has run, with the instant. -/
  calls : List (Nat × Nat)
  deriving DecidableEq, Repr

/-- What `qm_time` returns. -/
def State.now (s : State) : Nat := s.clock % 2 ^ 32

/-- `weekly_timer_cb`. -/
def weeklyTimerCb (env : Env) (s : State) : State :=
  let i := s.loop.nearestIdx
  let timeGroup := if s.loop.weeklyLoop then s.loop.timeGroup
    else s.loop.timeGroup.modify i fun ev => { ev with en := false }
  { s with
    calls := (i, s.clock) :: s.calls
    loop := weeklyTimerUpdate env s.now { s.loop with timeGroup := timeGroup } }

/-- A second passes. -/
def tick (env : Env) (s : State) : State :=
  let s := { s with clock := s.clock + 1 }
  match s.loop.timer with
  | none => s
  | some ms =>
    if ms ≤ 1000 then weeklyTimerCb env { s with loop := { s.loop with timer := none } }
    else { s with loop := { s.loop with timer := some (ms - 1000) } }

/-- `weekly_timer_add`, when the clock shows `clock`. Before 2023 the clock is taken as not set.
Here `g_now` is a `qm_time_t`, with all its bytes its own. -/
def weeklyTimerAdd (env : Env) (weeklyLoop : Bool) (weekMark : BitVec 8) (timeGroup : List EventTime)
    (clock : Nat) : State :=
  let loop : Loop :=
    { weeklyLoop := weeklyLoop
      weekMark := weekMark
      timeGroup := timeGroup
      nearestTm := nearestInf
      nearestIdx := nearestInf
      timer := none }
  let now := clock % 2 ^ 32
  { clock := clock
    loop := if 2023 - 1900 ≤ (localtimeR env.minuteswest now).year then weeklyTimerUpdate env now loop else loop
    calls := [] }

/-- `weekly_timer_start` and `weekly_timer_stop`: the mask and every event are switched, and
nothing was armed last. -/
def Loop.switch (loop : Loop) (on : Bool) (weekMark : BitVec 8) : Loop :=
  { loop with
    weekMark := weekMark
    nearestTm := nearestInf
    nearestIdx := nearestInf
    timeGroup := loop.timeGroup.map fun ev => { ev with en := on } }

def weeklyTimerStart (env : Env) (s : State) : State :=
  { s with loop := weeklyTimerUpdate env s.now (s.loop.switch true (s.loop.weekMark ||| 0x80#8)) }

end Qumios.WeeklyTimer
