import Qumios.Lib.Buffer
import Qumios.Lib.Links
import Qumios.Lib.Run

/-! The timers of `multi_timer.c`: two sorted lists of deadlines, one for the current
round of the 32-bit clock and one for the next.

Time is counted without a bound, and `qm_now_ms` shows what 32 bits of it show; what
the source keeps of the clock from one moment to another (`last_time`, and the
`now_time` of a call of `multi_timer_yield`) is kept here as the moment itself.

A yield runs callbacks in the middle of its loops, and callbacks call what they like,
yields included. So a yield is not one step but many: entering it, and one round of
its loop at a time. The yields that have not returned are a stack, and between two
rounds of the topmost one come the calls of the callback it is in. -/
namespace Qumios.MultiTimer
open Run Linked

def lap : Nat := 2 ^ 32

/-- The heads a timer's `list` can point to. -/
inductive Which where
  | timerList
  | overflowTimerList
  deriving DecidableEq, Repr

instance : Fintype Which := ⟨{.timerList, .overflowTimerList}, fun w => by cases w <;> decide⟩

/-- `multi_timer_t`, without `next` and the argument. -/
structure Timer where
  delay : Nat := 0
  period : Nat
  callback : Bool
  autoReload : Bool
  list : Option Which := none
  deriving DecidableEq, Repr

/-- The loop a yield is in: `overflow_timer_process`, or `timer_process`. -/
inductive Phase where
  | overflowing
  | processing
  deriving DecidableEq, Repr

/-- A call of `multi_timer_yield` that has not returned. -/
structure Yield where
  /-- When it read `now_time`. -/
  begun : Nat
  overflow : Bool
  phase : Phase
  inCallback : Bool := false
  deriving DecidableEq, Repr

def Yield.nowTime (y : Yield) : Nat := u32 y.begun

structure State (n : Nat) where
  links : Links Which (Fin n)
  timers : Fin n → Timer
  clock : Nat
  /-- When `last_time` was read; it is 0 before the first yield. -/
  lastSeen : Nat := 0
  yields : List Yield := []

section Calls
variable {n : Nat}

def State.now (s : State n) : Nat := u32 s.clock

def State.lastTime (s : State n) : Nat := u32 s.lastSeen

def State.setTimer (s : State n) (i : Fin n) (t : Timer) : State n :=
  { s with timers := Function.update s.timers i t }

/-! ### Lists -/

/-- `timer_list_insert`; `none` if one of its loops does not end. A list that ends has
every timer at most once. -/
def timerListInsert (s : State n) (w : Which) (i : Fin n) : Option (State n) :=
  match Links.unlink i (n + 1) (.head w) s.links with
  | none => none
  | some links =>
    match Links.link i (fun m => (s.timers i).delay < (s.timers m).delay) (n + 1) (.head w) links with
    | none => none
    | some links => some ({ s with links := links }.setTimer i { s.timers i with list := some w })

/-- The list `timer_insert` puts a timer into. -/
def target (period nowTime : Nat) : Which :=
  if u32 (period + nowTime) < nowTime then .overflowTimerList else .timerList

/-- `timer_insert`. -/
def timerInsert (s : State n) (i : Fin n) (nowTime : Nat) : Option (State n) :=
  let s := s.setTimer i { s.timers i with delay := u32 ((s.timers i).period + nowTime) }
  timerListInsert s (target (s.timers i).period nowTime) i

/-- `timer_list_switch`. -/
def timerListSwitch (s : State n) : State n :=
  { s with
    links := (s.links.set (.head .timerList) (s.links.head .overflowTimerList)).set (.head .overflowTimerList) none }

/-- `next_expire_time_get`. -/
def nextExpireTimeGet (s : State n) : Nat :=
  match s.links.head .timerList with
  | some i => (s.timers i).delay
  | none =>
    match s.links.head .overflowTimerList with
    | some i => (s.timers i).delay
    | none => 0

/-! ### Calls -/

/-- `multi_timer_creat`; `memset` clears the link as well. -/
def multiTimerCreat (s : State n) (i : Fin n) (ms : Nat) (callback autoReload : Bool) : State n :=
  { s with links := s.links.set (.next i) none }.setTimer i
    { period := ms, callback := callback, autoReload := autoReload }

/-- `multi_timer_delete`, which is also `multi_timer_stop`. -/
def multiTimerDelete (s : State n) (i : Fin n) : Option (State n) :=
  match (s.timers i).list with
  | none => some s
  | some w =>
    match Links.unlink i (n + 1) (.head w) s.links with
    | none => none
    | some links => some ({ s with links := links }.setTimer i { s.timers i with list := none })

/-- `multi_timer_start`. -/
def multiTimerStart (s : State n) (i : Fin n) : Option (State n) := timerInsert s i s.now

/-- `multi_timer_change`. -/
def multiTimerChange (s : State n) (i : Fin n) (ms : Nat) : Option (State n) :=
  match multiTimerDelete s i with
  | none => none
  | some s => multiTimerStart (multiTimerCreat s i ms (s.timers i).callback (s.timers i).autoReload) i

/-! ### Yields -/

inductive Event (n : Nat) where
  /-- Time goes by. -/
  | tick (ms : Nat)
  | start (i : Fin n)
  | stop (i : Fin n)
  | change (i : Fin n) (ms : Nat)
  /-- `multi_timer_yield` is entered. -/
  | yield
  /-- One round of the loop of the yield entered last: its callback has returned. -/
  | resume
  deriving DecidableEq, Repr

inductive Output (n : Nat) where
  | quiet
  | ok
  /-- A timer was taken from the list, and its callback called if it has one. -/
  | expired (i : Fin n) (called : Bool)
  /-- The yield has returned, with the time to the next deadline. -/
  | returned (next : Nat)
  deriving DecidableEq, Repr

def State.free (s : State n) : Bool :=
  match s.yields with
  | [] => true
  | y :: _ => y.inCallback

/-- The lines of `multi_timer_yield` in front of its loops. -/
def yieldEnter (s : State n) : State n :=
  let overflow : Bool := s.now < s.lastTime
  let phase := if overflow then Phase.overflowing else .processing
  { s with yields := ⟨s.clock, overflow, phase, false⟩ :: s.yields }

/-- The body of both loops: the first timer is taken from the list, goes back if it is
to, and calls its callback. -/
def yieldExpire (s : State n) (y : Yield) (rest : List Yield) (i : Fin n) : Option (State n × Output n) :=
  let s := { s with links := s.links.set (.head .timerList) (s.links.next i) }
  match if (s.timers i).autoReload then timerInsert s i y.nowTime else some s with
  | none => none
  | some s =>
    let called := (s.timers i).callback
    some ({ s with yields := { y with inCallback := called } :: rest }, .expired i called)

/-- The lines behind the loops. -/
def yieldLeave (s : State n) (y : Yield) (rest : List Yield) : State n × Output n :=
  let nextPeriod := nextExpireTimeGet s
  let value :=
    if nextPeriod > y.nowTime then nextPeriod - y.nowTime
    else if y.overflow then u32 (nextPeriod + lap - y.nowTime)
    else 0
  ({ s with lastSeen := s.clock, yields := rest }, .returned value)

/-- One round. -/
def yieldRound (s : State n) (y : Yield) (rest : List Yield) : Option (State n × Output n) :=
  match y.phase, s.links.head .timerList with
  | .overflowing, none =>
    some ({ timerListSwitch s with yields := { y with phase := .processing, inCallback := false } :: rest }, .quiet)
  | .overflowing, some i => yieldExpire s y rest i
  | .processing, none => some (yieldLeave s y rest)
  | .processing, some i =>
    if y.nowTime < (s.timers i).delay then some (yieldLeave s y rest) else yieldExpire s y rest i

def step (s : State n) : Event n → Option (State n × Output n)
  | .tick ms => some ({ s with clock := s.clock + ms }, .quiet)
  | .start i => if s.free then (multiTimerStart s i).map fun s => (s, .ok) else none
  | .stop i => if s.free then (multiTimerDelete s i).map fun s => (s, .ok) else none
  | .change i ms => if s.free then (multiTimerChange s i ms).map fun s => (s, .ok) else none
  | .yield => if s.free then some (yieldEnter s, .quiet) else none
  | .resume =>
    match s.yields with
    | [] => none
    | y :: rest => yieldRound s y rest

def machine (n : Nat) : Machine (State n) (Event n) (Output n) where
  step := step

/-- Timers as `multi_timer_creat` leaves them, at any time of the clock. -/
def boot (timers : Fin n → Timer) (clock : Nat) : State n where
  links := ⟨fun _ => none, fun _ => none⟩
  timers := fun i => { timers i with delay := 0, list := none }
  clock := clock

def State.members (s : State n) (w : Which) : List (Fin n) := walk s.links.next (n + 1) (s.links.head w)

end Calls

end Qumios.MultiTimer
