import Qumios.EventBus.Circbuf
import Qumios.Lib.Run

/-! The event bus (`qm_eventbus_static.c`): a table of handlers and two queues.

Handlers are the user's. What one does while it runs is written down as a script: the
events it posts and the looks it takes at the data of its event. A run of `process_events`
or `call_event` comes with the scripts of the handlers it will call, in the order of the
calls; a handler without a script does nothing. -/
namespace Qumios.EventBus
open Run

inductive Class where
  | normal
  | emerge
  deriving DecidableEq, Repr

/-- `qm_eventbus_event_t`. -/
structure Event where
  moduleId : UInt8
  eventId : UInt8
  deriving DecidableEq, Repr

/-- `IS_EMERGE_EVENT`. -/
def Event.cls (ev : Event) : Class := if ev.eventId &&& 0x80 ≠ 0 then .emerge else .normal

def Event.handles (entry ev : Event) : Bool :=
  entry.moduleId == ev.moduleId && (entry.eventId == 0xff || (entry.eventId &&& 0x7f) == (ev.eventId &&& 0x7f))

/-- What a caller hands over: an event with what lies behind it in memory, and a size. -/
structure Msg where
  ev : Event
  behind : Bytes
  size : Nat
  inside : size ≤ behind.length + 2

def Msg.memory (m : Msg) : Bytes := m.ev.moduleId :: m.ev.eventId :: m.behind

def Msg.bytes (m : Msg) : Bytes := m.memory.take m.size

/-- `qm_eventbus_t`; the handler of an entry is named by its index. -/
structure Bus where
  table : List Event
  normal : Circbuf
  emerge : Circbuf

def Bus.queue (bus : Bus) : Class → Circbuf
  | .normal => bus.normal
  | .emerge => bus.emerge

def Bus.setQueue (bus : Bus) (cb : Circbuf) : Class → Bus
  | .normal => { bus with normal := cb }
  | .emerge => { bus with emerge := cb }

/-- `qm_eventbus_init`, with a buffer that both queues fit in. -/
def Bus.init (table : List Event) (size emergencyPercent : Nat) : Bus :=
  let emergeBufSize := size * emergencyPercent / 100
  let emergeBufSize := if emergeBufSize % 4 ≠ 0 then (emergeBufSize / 4 + 1) * 4 else emergeBufSize
  { table := table, normal := .init (size - emergeBufSize), emerge := .init emergeBufSize }

/-- The table up to `NULL_MODULE_ID`, with the indices. -/
def Bus.entries (bus : Bus) : List (Event × Nat) := (bus.table.takeWhile fun entry => entry.moduleId != 0).zipIdx

/-- `qm_eventbus_post_event`; `none` is an error. The size becomes a `uint8_t`. -/
def Bus.post (bus : Bus) (m : Msg) : Option Bus :=
  if m.size = 0 then none
  else if bus.entries.any fun entry => entry.1.handles m.ev then
    match (bus.queue m.ev.cls).pushElem m.memory (UInt8.ofNat m.size) with
    | none => none
    | some cb => some (bus.setQueue cb m.ev.cls)
  else none

/-- `qm_eventbus_peek_event_data`. -/
def Bus.peek (bus : Bus) (ev : Event) (size : Nat) : Option Bytes :=
  if size = 0 then none else (bus.queue ev.cls).pop size

inductive Action where
  | peek (size : Nat)
  | post (m : Msg)

def Action.isPost : Action → Bool
  | .peek _ => false
  | .post _ => true

abbrev Script := List Action

/-- A call of a handler: the event it gets, and its looks at the data. -/
structure Showing where
  handler : Nat
  ev : Event
  peeks : List (Nat × Option Bytes)
  deriving DecidableEq, Repr

inductive Obs where
  /-- A post that succeeds. -/
  | posted (cls : Class) (data : Bytes)
  /-- A handler is called by `process_events`. -/
  | delivered (s : Showing)
  /-- A handler is called by `call_event`. -/
  | called (s : Showing)
  deriving DecidableEq, Repr

/-- A handler runs: its looks, and its posts. -/
def act (ev : Event) : Script → Bus → Bus × List (Nat × Option Bytes) × List Obs
  | [], bus => (bus, [], [])
  | .peek size :: rest, bus =>
    let (bus', peeks, obs) := act ev rest bus
    (bus', (size, bus.peek ev size) :: peeks, obs)
  | .post m :: rest, bus =>
    match bus.post m with
    | none => act ev rest bus
    | some bus =>
      let (bus, peeks, obs) := act ev rest bus
      (bus, peeks, .posted m.ev.cls m.bytes :: obs)

/-- The loop over the table that calls the handlers of an event; it leaves the scripts it
has not used. -/
def dispatch (way : Showing → Obs) (ev : Event) : List (Event × Nat) → List Script → Bus → Bus × List Obs × List Script
  | [], scripts, bus => (bus, [], scripts)
  | (entry, i) :: rest, scripts, bus =>
    if entry.handles ev then
      let (bus, peeks, posts) := act ev (scripts.headD []) bus
      let (bus, obs, scripts) := dispatch way ev rest scripts.tail bus
      (bus, way ⟨i, ev, peeks⟩ :: (posts ++ obs), scripts)
    else dispatch way ev rest scripts bus

/-- One of the two loops of `qm_eventbus_process_events`; `none` if it takes more than so many
rounds, or reads an event that has not been written. -/
def drain (cls : Class) : Nat → List Script → Bus → Option (Bus × List Obs × List Script)
  | 0, _, _ => none
  | rounds + 1, scripts, bus =>
    if (bus.queue cls).elemCnt = 0 then some (bus, [], scripts)
    else
      match (bus.queue cls).pop 2 with
      | some [moduleId, eventId] =>
        let (bus, obs, scripts) := dispatch .delivered ⟨moduleId, eventId⟩ bus.entries scripts bus
        match drain cls rounds scripts (bus.setQueue (bus.queue cls).dropCurElem cls) with
        | none => none
        | some (bus, more, scripts) => some (bus, obs ++ more, scripts)
      | _ => none

def toPost (scripts : List Script) : Nat := scripts.flatten.countP Action.isPost

/-- `qm_eventbus_process_events`. -/
def Bus.process (bus : Bus) (scripts : List Script) : Option (Bus × List Obs) :=
  match drain .emerge (bus.emerge.elemCnt + toPost scripts + 1) scripts bus with
  | none => none
  | some (bus, obs, scripts) =>
    match drain .normal (bus.normal.elemCnt + toPost scripts + 1) scripts bus with
    | none => none
    | some (bus, more, _) => some (bus, obs ++ more)

/-- `qm_eventbus_call_event`; whether it succeeds is returned with what happens. -/
def Bus.call (bus : Bus) (m : Msg) (scripts : List Script) : Bus × Bool × List Obs :=
  if m.size = 0 then (bus, false, [])
  else if m.size > 2 then
    match bus.post m with
    | none => (bus, false, [])
    | some bus =>
      let (bus, obs, _) := dispatch .called m.ev bus.entries scripts bus
      (bus.setQueue (bus.queue m.ev.cls).dropCurElem m.ev.cls, true, obs)
  else
    let (bus, obs, _) := dispatch .called m.ev bus.entries scripts bus
    (bus, true, obs)

inductive Op where
  | post (m : Msg)
  | call (m : Msg) (scripts : List Script)
  | process (scripts : List Script)

/-- Whether the operation succeeds, and what happens in it. -/
def step (bus : Bus) : Op → Option (Bus × Bool × List Obs)
  | .post m =>
    match bus.post m with
    | none => some (bus, false, [])
    | some bus => some (bus, true, [.posted m.ev.cls m.bytes])
  | .call m scripts => some (bus.call m scripts)
  | .process scripts =>
    match bus.process scripts with
    | none => none
    | some (bus, obs) => some (bus, true, obs)

def machine : Machine Bus Op (Bool × List Obs) where
  step := step

end Qumios.EventBus
