import Qumios.Lib.Buffer
import Qumios.Lib.Run

/-! The receiver of `comm_base.c`: frames are read in steps, each with a length and a
check of its own.

The lengths and checks are callbacks of the user. Here they are functions of a state
that only the checks and the consumers of frames change: `recv_len_get` is called again
with every chunk, and says the same as long as nothing was checked in between. `memcpy`
moves the rest of the buffer down over itself; it is taken to copy upwards. -/
namespace Qumios.Comm
open Run

/-- `comm_base_dir_t`. -/
inductive Dir where
  | down
  | up
  deriving DecidableEq, Repr

/-- `comm_base_cmd_ops_t` with the one of its functions that is called: `unpack` by the receiver, to which it makes no
difference whether it fails, and `pack` by the sender. -/
structure CmdOps (τ : Type) where
  cmd : Int
  dir : Dir
  call : τ

/-- `comm_base_cmd_ops_get`. -/
def cmdOpsGet {τ : Type} (cmds : List (CmdOps τ)) (cmd : Int) : Option (CmdOps τ) := cmds.find? fun ops => ops.cmd == cmd

/-- What has been registered: the steps, `comm_base_param_t`, the commands, and the size of
the buffer. -/
structure Config (σ : Type) where
  stepNum : Nat
  recvLenGet : σ → Nat → Nat
  recvCheck : σ → Nat → Bytes → σ × Bool
  check : σ → Bytes → σ × Bool
  cmdGet : Bytes → Int
  idGet : Bytes → Int
  cmds : List (CmdOps (σ → Bytes → σ))
  bufMaxLen : Nat

/-- The part of `comm_base_ctx_t` the receiver uses; `buf` is the first `recv_len` bytes of
`recv_buf`. -/
structure State (σ : Type) where
  user : σ
  curStep : Nat := 0
  readLen : Nat := 0
  buf : Bytes := []
  /-- The ids of the commands that wait for an answer. -/
  records : List Int := []

section Receiver
variable {σ : Type} (cfg : Config σ)

/-- `comm_base_record_info_remove_by_id`. -/
def recordRemove (records : List Int) (id : Int) : Option (List Int) :=
  if id ∈ records then some (records.erase id) else none

/-- The lines from `__init` on. -/
def rewind (s : State σ) : State σ := { s with buf := s.buf.drop s.readLen, readLen := 0, curStep := 0 }

/-- What is done with a frame that is complete: the state in front of `__init`, and the frame
if a command has got it. -/
def dispatch (s : State σ) : State σ × List Bytes :=
  let frame := s.buf.take s.readLen
  let (user, ok) := cfg.check s.user frame
  let s := { s with user := user }
  if !ok then (s, [])
  else
    match cmdOpsGet cfg.cmds (cfg.cmdGet frame) with
    | none => (s, [])
    | some ops =>
      match if ops.dir = .down then recordRemove s.records (cfg.idGet frame) else some s.records with
      | none => (s, [])
      | some records => ({ s with records := records, user := ops.call s.user frame }, [frame])

/-- One round of the loop of `comm_base_recv_handler`, with the frame it dispatches; `none`
where it breaks off to wait. -/
def round (s : State σ) : Option (State σ × List Bytes) :=
  let needRecvLen := cfg.recvLenGet s.user s.curStep
  if needRecvLen > s.buf.length - s.readLen then none
  else
    let (user, ok) := cfg.recvCheck s.user s.curStep ((s.buf.drop s.readLen).take needRecvLen)
    let s := { s with user := user, readLen := s.readLen + needRecvLen }
    if !ok then some (rewind s, [])
    else
      let s := { s with curStep := s.curStep + 1 }
      if s.curStep = cfg.stepNum then
        let (s, frames) := dispatch cfg s
        some (rewind s, frames)
      else some (s, [])

/-- The loop; `none` if it takes more than so many rounds. -/
def loop : Nat → State σ → Option (State σ × List Bytes)
  | 0, _ => none
  | rounds + 1, s =>
    match round cfg s with
    | none => some (s, [])
    | some (s, frames) =>
      match loop rounds s with
      | none => none
      | some (s, more) => some (s, frames ++ more)

/-- A chunk of bytes, and whether the timer has expired since the one in front of it. -/
structure Chunk where
  data : Bytes
  expired : Bool := false

/-- `comm_base_recv_handler`: the frames it dispatches. -/
def recvHandler (s : State σ) (chunk : Chunk) : Option (State σ × List Bytes) :=
  let s := if s.curStep ≠ 0 ∧ chunk.expired = true then { s with curStep := 0, readLen := 0, buf := [] } else s
  if s.buf.length + chunk.data.length > cfg.bufMaxLen then some (s, [])
  else
    let s := { s with buf := s.buf ++ chunk.data }
    loop cfg ((s.buf.length + 1) * cfg.stepNum + 1) s

def machine : Machine (State σ) Chunk (List Bytes) where
  step := recvHandler cfg

def dispatched (trace : List (Chunk × List Bytes)) : List Bytes := trace.flatMap Prod.snd

end Receiver

end Qumios.Comm
