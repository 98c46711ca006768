import Qumios.Comm.Receiver

/-! The sender of `comm_base.c`: commands that wait for an answer.

A command with the direction `down` is kept in a record until it is answered or given up.
The record has a delayed action: its timer, when it runs out, puts the record into the
queue of the worker, and the worker sends the frame again or gives up. The worker is also
what handles sends and answers, so each of them is one step here; what the queue holds
beside them are the records whose time is up. Cancelling a delayed action stops its timer
and does not look at the queue. -/
namespace Qumios.Comm.Sender
open Run

/-- `pack` makes the frame of a command, or fails. -/
structure Config (α : Type) where
  cmds : List (CmdOps (α → Option Bytes))
  cmdGet : Bytes → Int
  idGet : Bytes → Int

/-- `comm_base_record_info_t`. -/
structure Record where
  /-- Where its node is. -/
  ref : Nat
  cmd : Int
  id : Int
  /-- The copy of the frame; `none` once it is freed. -/
  data : Option Bytes
  len : UInt8
  sendCount : UInt8
  timeout : Nat
  /-- The timer of `handle` runs. -/
  started : Bool
  deriving DecidableEq, Repr

structure State where
  records : List Record := []
  /-- The delayed actions in the queue of the worker. -/
  queue : List Nat := []
  /-- The next node. -/
  next : Nat := 0
  deriving DecidableEq, Repr

/-- `comm_base_event_t`. -/
inductive Notice where
  | resend
  | noAck
  deriving DecidableEq, Repr

/-- `comm_base_data_info_t`. -/
structure Info where
  cmd : Int
  id : Int
  data : Bytes
  len : UInt8
  deriving DecidableEq, Repr

/-- What the outside sees, with the record it is done for. -/
inductive Action where
  | transmit (ref : Option Nat) (bytes : Bytes)
  | notify (ref : Nat) (event : Notice) (info : Info)
  /-- Memory is used that was freed. -/
  | fault
  deriving DecidableEq, Repr

inductive Ret where
  | ok
  | einval
  | enomem
  | epack
  | efull
  deriving DecidableEq, Repr

structure Output where
  ret : Ret := .ok
  actions : List Action := []
  /-- The record an answer was found for. -/
  found : Option Nat := none
  deriving DecidableEq, Repr

/-- What a send may fail to get: memory for the buffer, the event with its place in the queue, memory
for the frame and for the node, and the timer. -/
structure Grants where
  buf : Bool := true
  event : Bool := true
  data : Bool := true
  node : Bool := true
  timer : Bool := true
  deriving DecidableEq, Repr

inductive Event (α : Type) where
  /-- `comm_base_cmd_send`, and the worker with the event it posts. -/
  | send (cmd : Int) (count : Int) (timeout : Nat) (arg : α) (grants : Grants)
  /-- An answer with this id has come in. -/
  | ack (id : Int)
  /-- The timer of a record runs out; the queue of the worker may have no room. -/
  | expire (ref : Nat) (room : Bool)
  /-- The worker takes a record out of its queue; the timer may not start again. -/
  | work (timer : Bool)
  deriving DecidableEq, Repr

section Calls
variable {α : Type} (cfg : Config α)

/-- `comm_base_record_info_find`. -/
def recordFind (s : State) (id : Int) : Option Record := s.records.find? fun r => r.id == id

/-- `comm_base_record_info_remove_by_id`, with `comm_base_record_delete`. -/
def recordRemoveById (s : State) (id : Int) : State × Output :=
  match recordFind s id with
  | none => (s, { ret := .einval })
  | some r =>
    ({ s with records := s.records.eraseP fun r => r.id == id },
      { actions := if r.data.isSome then [] else [.fault], found := some r.ref })

def State.update (s : State) (ref : Nat) (f : Record → Record) : State :=
  { s with records := s.records.map fun r => if r.ref = ref then f r else r }

/-- `serial_generic_send`. A record whose timer does not start stays in the list, with its frame
freed. -/
def serialGenericSend (s : State) (data : Bytes) (count : Int) (timeout : Nat) (grants : Grants) :
    State × List Action :=
  if data.length = 0 then (s, [])
  else if !grants.data then (s, [])
  else if !grants.node then (s, [])
  else
    let record : Record := ⟨s.next, cfg.cmdGet data, cfg.idGet data, some data, UInt8.ofNat data.length,
      UInt8.ofInt count, timeout, false⟩
    if grants.timer then
      ({ s with
          records := s.records ++ [{ record with sendCount := record.sendCount - 1, started := true }]
          next := s.next + 1 },
        [.transmit (some record.ref) (data.take record.len.toNat)])
    else ({ s with records := s.records ++ [{ record with data := none }], next := s.next + 1 }, [])

/-- `comm_base_cmd_send`, with `comm_base_event_callback` for its event. -/
def commBaseCmdSend (s : State) (cmd count : Int) (timeout : Nat) (arg : α) (grants : Grants) : State × Output :=
  if count = 0 ∨ timeout = 0 then (s, { ret := .einval })
  else
    match cmdOpsGet cfg.cmds cmd with
    | none => (s, { ret := .einval })
    | some ops =>
      match ops.call arg with
      | none => (s, { ret := .epack })
      | some data =>
        if !grants.buf then (s, { ret := .enomem })
        else if !grants.event then (s, { ret := .efull })
        else
          match ops.dir with
          | .up => (s, { actions := [.transmit none data] })
          | .down =>
            let (s, actions) := serialGenericSend cfg s data count timeout grants
            (s, { actions := actions })

/-- `comm_base_generic_send_timeout`, with `comm_base_generic_resend`. -/
def sendTimeout (s : State) (r : Record) (timer : Bool) : State × List Action :=
  match r.data with
  | none => (s, [.fault])
  | some data =>
    let info : Info := ⟨r.cmd, r.id, data, r.len⟩
    if r.sendCount = 0 then
      let (s, removed) := recordRemoveById s r.id
      (s, .notify r.ref .noAck info :: removed.actions)
    else if timer then
      (s.update r.ref fun r => { r with started := true, sendCount := r.sendCount - 1 },
        [.notify r.ref .resend info, .transmit (some r.ref) (data.take r.len.toNat)])
    else
      let (s, removed) := recordRemoveById s r.id
      (s, .notify r.ref .resend info :: removed.actions)

def step (s : State) : Event α → Option (State × Output)
  | .send cmd count timeout arg grants => some (commBaseCmdSend cfg s cmd count timeout arg grants)
  | .ack id => some (recordRemoveById s id)
  | .expire ref room =>
    if ∃ r ∈ s.records, r.ref = ref ∧ r.started = true then
      let s := s.update ref fun r => { r with started := false }
      some ({ s with queue := if room then s.queue ++ [ref] else s.queue }, {})
    else none
  | .work timer =>
    match s.queue with
    | [] => none
    | ref :: rest =>
      let s := { s with queue := rest }
      match s.records.find? fun r => r.ref == ref with
      | none => some (s, { actions := [.fault] })
      | some r =>
        let (s, actions) := sendTimeout s r timer
        some (s, { actions := actions })

def machine : Machine State (Event α) Output := ⟨step cfg⟩

def frame (cmd : Int) (arg : α) : Option Bytes :=
  match cmdOpsGet cfg.cmds cmd with
  | none => none
  | some ops => if ops.dir = .down then ops.call arg else none

end Calls

end Qumios.Comm.Sender
