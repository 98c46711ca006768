import Qumios.Lib.Buffer
import Qumios.Lib.CString
import Qumios.Lib.Run

/-! The parser of the AT server (`qm_at_server.c`).

Bytes are collected in `recv_buf` until the buffer, read as a string, has an end mark; then the command's name is copied
out of it, up to the first `?`, `=`, CR or digit, and the buffer is cleared. There are two builds of the loop. That of
an operating system is a task of its own that receives one byte after another; it stores each without a look at the
size of the buffer. The other one is called with data, and clears the buffer if it is full.

A byte written behind the buffer, a search in a buffer without a NUL, and a name that is too long for `cur_cmd_name` are
faults. -/
namespace Qumios.At
open CString Run

/-! ### Characters -/

def cr : UInt8 := 13
def lf : UInt8 := 10
def escKey : UInt8 := 0x1B
def backspaceKey : UInt8 := 0x08
def delectKey : UInt8 := 0x7F

/-- What ends a command's name: `?`, `=`, CR and digits. -/
def isDelimiter (c : UInt8) : Bool := c == 63 || c == 61 || c == cr || (48 ≤ c && c ≤ 57)

/-- `strstr(…, "\r\n")`. -/
def hasEndMark : Bytes → Bool
  | a :: b :: rest => (a == cr && b == lf) || hasEndMark (b :: rest)
  | _ => false

/-- `CONFIG_QM_AT_CMD_NAME_MAX_LEN`. -/
def cmdNameMaxLen : Nat := 16

/-! ### One byte -/

inductive Build where
  | os
  | bareMetal
  deriving DecidableEq

/-- What the server is seen to do: characters sent back, and commands that are looked up, with their arguments. -/
inductive Output where
  | echo (chars : Bytes)
  | cmdErr
  | command (name args : Bytes)
  deriving DecidableEq

/-- `recv_buf` of `recv_buf_len` bytes, `cur_recv_len`, `echo_mode` and `last_ch`. -/
structure Server where
  recvBuf : Bytes
  curRecvLen : Nat
  echoMode : Bool
  lastCh : UInt8
  exit : Bool := false
  deriving DecidableEq

/-- `qm_at_server_init`. -/
def Server.init (recvBufLen : Nat) (echoMode : Bool) : Server := ⟨List.replicate recvBufLen 0, 0, echoMode, 0, false⟩

section

-- what commands do to the echo mode, by their names and arguments
variable (process : Bytes → Bytes → Bool → Bool)

namespace Server

/-- From `__retry` on. -/
def retry (s : Server) : Server := { s with recvBuf := List.replicate s.recvBuf.length 0, curRecvLen := 0 }

/-- The end of a round, from `strstr` on: `qm_at_cmd_get_name`, the command, and `__retry`. -/
def command (s : Server) : Option (Server × List Output) :=
  if hasEndMark (text s.recvBuf) then
    match (text s.recvBuf).findIdx? isDelimiter with
    | none => some (s.retry, [.cmdErr])
    | some i =>
      if i + 1 ≤ cmdNameMaxLen then
        let name := (text s.recvBuf).take i
        let args := (text s.recvBuf).drop i
        some ({ s.retry with echoMode := process name args s.echoMode }, [.command name args])
      else none
  else some (s, [])

/-- A byte that was neither dropped nor taken for a key. -/
def store (build : Build) (s : Server) (ch : UInt8) : Option (Server × List Output) :=
  if s.curRecvLen < s.recvBuf.length then
    let s := { s with recvBuf := s.recvBuf.set s.curRecvLen ch, curRecvLen := s.curRecvLen + 1, lastCh := ch }
    if (0 : UInt8) ∈ s.recvBuf then s.command process else none
  else
    match build with
    | .os => none
    | .bareMetal => some (s.retry, [])

def storeEchoed (build : Build) (s : Server) (ch : UInt8) (chars : Bytes) : Option (Server × List Output) :=
  (s.store process build ch).map fun r => (r.1, .echo chars :: r.2)

/-- A round of the loop of `at_server_parser`, for a byte that is not ESC. -/
def round (build : Build) (s : Server) (ch : UInt8) : Option (Server × List Output) :=
  if ch = 0 then some (s, [])
  else if s.echoMode then
    if ch = cr ∨ (ch = lf ∧ s.lastCh ≠ cr) then s.storeEchoed process build ch [cr, lf]
    else if ch = lf then s.store process build ch
    else if ch = backspaceKey ∨ ch = delectKey then
      if s.curRecvLen ≠ 0 then
        some ({ s with recvBuf := s.recvBuf.set (s.curRecvLen - 1) 0, curRecvLen := s.curRecvLen - 1 },
          [.echo [backspaceKey, 32, backspaceKey]])
      else some (s, [])
    else s.storeEchoed process build ch [ch]
  else s.store process build ch

end Server

/-! ### The two builds -/

def rounds (build : Build) : Machine Server UInt8 (List Output) where
  step s ch := s.round process build ch

/-- What `recv` returns: an error, no byte, or one. -/
inductive OsEvent where
  | recvFailed
  | recvNothing
  | recv (ch : UInt8)
  | echoModeSet (echoMode : Bool)
  | deinit

/-- The condition of the task's loop. -/
def Server.running (s : Server) : Option Server := if s.exit then none else some s

/-- The parser of the operating system's build; without a server once the task has come to its end. The task waits
in `recv`, so `qm_at_server_deinit` ends it only behind the next return from there. -/
def osMachine : Machine (Option Server) OsEvent (List Output) where
  step
    | none, _ => some (none, [])
    | some s, .recvFailed => some (s.running, [])
    | some s, .recvNothing => some (s.running, [])
    | some s, .recv ch =>
      if ch = escKey then some (none, [])
      else (s.round process .os ch).map fun r => (r.1.running, r.2)
    | some s, .echoModeSet echoMode => some (some { s with echoMode := echoMode }, [])
    | some s, .deinit => some (some { s with exit := true }, [])

inductive BareEvent where
  | push (data : Bytes)
  | echoModeSet (echoMode : Bool)

def taken (data : Bytes) : Bytes := data.takeWhile (· ≠ escKey)

/-- The parser of the other build, called with data; `last_ch` starts anew. -/
def bareMachine : Machine Server BareEvent (List Output) where
  step s
    | .push data =>
      ((rounds process .bareMetal).run { s with lastCh := 0 } (taken data)).map fun r => (r.1, r.2.flatMap Prod.snd)
    | .echoModeSet echoMode => some ({ s with echoMode := echoMode }, [])

end

end Qumios.At
