import Qumios.Lib.Buffer
import Qumios.Lib.Run

/-! Virtual channels (`virtual_channel.c`).

Clients and servers live in tables, and a server has a table of listen nodes. A
descriptor is a place in a table: `i + 1` for a client, `(i + 1) << 8` for a server and
that plus `j + 1` for its listen node. A client and a listen node each keep the
descriptor of the other in `client_fd`.

An operation runs as a whole. `connect` is over when its request has been made (the wait
for the answer changes nothing here), and `accept` with no request to take is blocked. A
ring buffer is the list of its bytes. -/
namespace Qumios.VirtualChannel
open Run

/-- `CONFIG_VC_SERVER_NUM`, `CONFIG_VC_LISTEN_NUM` and `CONFIG_VC_CLIENT_NUM`; what a table
holds is told apart by one byte of a descriptor. -/
structure Config where
  serverNum : Nat
  listenNum : Nat
  clientNum : Nat
  listens : listenNum < 256
  clients : clientNum < 256

/-- `vc_node_t`: a client or a listen node. -/
structure Node where
  fd : Nat := 0
  errCode : Bool := false
  clientFd : Nat := 0
  /-- The size of the ring buffer, and the bytes in it. -/
  size : Nat := 0
  inbox : Bytes := []
  deriving DecidableEq, Repr

/-- `vc_server_t`, without the listen nodes. -/
structure Server where
  fd : Nat := 0
  host : String := ""
  port : Int := 0
  rdSize : Nat := 0
  /-- The count of the semaphore. -/
  accept : Nat := 0

/-- `g_vc_server` and `g_vc_node`. -/
structure State where
  server : Nat → Server := fun _ => {}
  listen : Nat → Nat → Node := fun _ _ => {}
  client : Nat → Node := fun _ => {}

namespace State

def setServer (s : State) (i : Nat) (server : Server) : State :=
  { s with server := fun k => if k = i then server else s.server k }

def setListen (s : State) (i j : Nat) (node : Node) : State :=
  { s with listen := fun k l => if k = i ∧ l = j then node else s.listen k l }

def setClient (s : State) (i : Nat) (node : Node) : State :=
  { s with client := fun k => if k = i then node else s.client k }

end State

inductive Errno where
  | einval
  | efull
  | eio
  deriving DecidableEq, Repr

inductive Role where
  | none
  | client
  | listen
  | server
  deriving DecidableEq, Repr

/-- `vc_role_get`. -/
def roleGet (fd : Nat) : Role :=
  if fd / 256 > 0 then if fd % 256 > 0 then .listen else .server
  else if fd % 256 > 0 then .client
  else .none

def first (num : Nat) (p : Nat → Bool) : Option Nat := (List.range num).find? p

section Operations
variable (cfg : Config)

/-- `vc_server_fd_new`: the place. -/
def serverFdNew (s : State) : Option Nat := first cfg.serverNum fun i => (s.server i).fd == 0

/-- `vc_server_get`. -/
def serverGet (s : State) (fd : Nat) : Option Nat :=
  if fd % 256 = 0 ∧ fd / 256 ≤ cfg.serverNum ∧ fd / 256 ≠ 0 ∧ (s.server (fd / 256 - 1)).fd ≠ 0 then
    some (fd / 256 - 1)
  else none

/-- `vc_listen_get`. -/
def listenGet (s : State) (fd : Nat) : Option (Nat × Nat) :=
  if (fd / 256 ≤ cfg.serverNum ∧ fd / 256 ≠ 0) ∧ (fd % 256 ≤ cfg.listenNum ∧ fd % 256 ≠ 0) ∧
      (s.server (fd / 256 - 1)).fd ≠ 0 ∧ (s.listen (fd / 256 - 1) (fd % 256 - 1)).fd ≠ 0 then
    some (fd / 256 - 1, fd % 256 - 1)
  else none

/-- `vc_client_get`. -/
def clientGet (s : State) (fd : Nat) : Option Nat :=
  if fd ≤ cfg.clientNum ∧ fd ≠ 0 ∧ (s.client (fd - 1)).fd ≠ 0 then some (fd - 1) else none

/-- `vc_client_fd_new`: the place. -/
def clientFdNew (s : State) : Option Nat := first cfg.clientNum fun i => (s.client i).fd == 0

/-- `vc_server_fd_find`: the place. -/
def serverFdFind (s : State) (host : Option String) (port : Int) : Option Nat :=
  first cfg.serverNum fun i =>
    (s.server i).fd != 0 && (s.server i).port == port &&
      match host with
      | some host => (s.server i).host != "" && (s.server i).host == host
      | none => (s.server i).host == ""

/-- What the operations return. Along with it come the places they act on: the client an
accepted node is for, and the descriptor of the node that gets the bytes of a write. -/
inductive Out where
  | ok
  | created (fd : Nat)
  | accepted (fd client : Nat)
  /-- `accept` returns zero. -/
  | refused
  | blocked
  | wrote (dest len : Nat)
  | failed (err : Errno)
  deriving DecidableEq, Repr

/-- `virtual_channel_server_creat`. -/
def serverCreate (s : State) (host : Option String) (port : Int) (rdSize wrSize : Nat) : State × Out :=
  if rdSize = 0 ∨ wrSize = 0 then (s, .failed .einval)
  else if (host.getD "").length > 16 then (s, .failed .einval)
  else
    match serverFdNew cfg s with
    | none => (s, .failed .efull)
    | some i =>
      (s.setServer i { fd := (i + 1) * 256, host := host.getD "", port := port, rdSize := rdSize },
        .created ((i + 1) * 256))

/-- `virtual_channel_client_creat`. -/
def clientCreate (s : State) (rdSize wrSize : Nat) : State × Out :=
  if rdSize = 0 ∨ wrSize = 0 then (s, .failed .einval)
  else
    match clientFdNew cfg s with
    | none => (s, .failed .efull)
    | some i => (s.setClient i { s.client i with fd := i + 1, size := rdSize, inbox := [] }, .created (i + 1))

/-- The slot that `vc_client_connect_set` takes. -/
def requestSlot (s : State) (i : Nat) : Option Nat :=
  first cfg.listenNum fun j => (s.listen i j).fd == 0 && (s.listen i j).clientFd == 0

/-- `virtual_channel_connect`. -/
def connect (s : State) (fd : Nat) (host : Option String) (port : Int) : State × Out :=
  if fd > cfg.clientNum ∨ fd = 0 then (s, .failed .einval)
  else
    match serverFdFind cfg s host port with
    | none => (s, .failed .eio)
    | some i =>
      match requestSlot cfg s i with
      | none => (s, .failed .eio)
      | some j =>
        let s := s.setListen i j { s.listen i j with clientFd := fd }
        match clientGet cfg s fd with
        | none => (s, .failed .eio)
        | some _ => (s.setServer i { s.server i with accept := (s.server i).accept + 1 }, .ok)

/-- The slot that `vc_server_fd_accept` takes. -/
def acceptSlot (s : State) (i : Nat) : Option Nat := first cfg.listenNum fun j => (s.listen i j).fd == 0

/-- `virtual_channel_accept`. -/
def accept (s : State) (fd : Nat) : State × Out :=
  match serverGet cfg s fd with
  | none => (s, .failed .einval)
  | some i =>
    if (s.server i).accept = 0 then (s, .blocked)
    else
      let s := s.setServer i { s.server i with accept := (s.server i).accept - 1 }
      match acceptSlot cfg s i with
      | none => (s, .refused)
      | some j =>
        let node := { s.listen i j with fd := fd + (j + 1), size := (s.server i).rdSize, inbox := [] }
        let s := s.setListen i j node
        match clientGet cfg s node.clientFd with
        | none => (s, .refused)
        | some k =>
          (s.setClient k { s.client k with clientFd := fd + (j + 1) }, .accepted (fd + (j + 1)) node.clientFd)

/-- `qm_ringbuf_push`: what fits, of at most `size` bytes. -/
def Node.push (node : Node) (data : Bytes) : Node × Option Nat :=
  if data.length > node.size then (node, none)
  else
    let taken := data.take (node.size - 1 - node.inbox.length)
    ({ node with inbox := node.inbox ++ taken }, some taken.length)

def pushed (fd : Nat) (len : Option Nat) : Out :=
  match len with
  | none => .failed .einval
  | some len => .wrote fd len

/-- `virtual_channel_write`, to the node of `vc_node_write_get`. -/
def write (s : State) (fd : Nat) (data : Bytes) : State × Out :=
  if fd = 0 ∨ data.length = 0 then (s, .failed .einval)
  else
    match roleGet fd with
    | .client =>
      match clientGet cfg s fd with
      | none => (s, .failed .eio)
      | some k =>
        match listenGet cfg s (s.client k).clientFd with
        | none => (s, .failed .eio)
        | some (i, j) =>
          let (node, len) := (s.listen i j).push data
          (s.setListen i j node, pushed (s.listen i j).fd len)
    | .listen =>
      match listenGet cfg s fd with
      | none => (s, .failed .eio)
      | some (i, j) =>
        match clientGet cfg s (s.listen i j).clientFd with
        | none => (s, .failed .eio)
        | some k =>
          let (node, len) := (s.client k).push data
          (s.setClient k node, pushed (s.client k).fd len)
    | _ => (s, .failed .eio)

/-- `vc_client_destroy`. -/
def clientDestroy (s : State) (fd : Nat) : State × Out :=
  match clientGet cfg s fd with
  | none => (s, .failed .einval)
  | some k =>
    let node := s.client k
    let s := s.setClient k { node with fd := 0 }
    let s :=
      if node.errCode then s
      else
        match listenGet cfg s node.clientFd with
        | none => s
        | some (i, j) => s.setListen i j { s.listen i j with errCode := true }
    (s.setClient k {}, .ok)

/-- `vc_listen_destroy`. -/
def listenDestroy (s : State) (fd : Nat) : State × Out :=
  match listenGet cfg s fd with
  | none => (s, .failed .einval)
  | some (i, j) =>
    let node := s.listen i j
    let s := s.setListen i j { node with fd := 0 }
    let s :=
      if node.errCode then s
      else
        match clientGet cfg s node.clientFd with
        | none => s
        | some k => s.setClient k { s.client k with errCode := true }
    (s.setListen i j {}, .ok)

/-- `vc_server_destroy`. The server's own descriptor is deleted first, so that no listen node is
found any more when it is to be destroyed. -/
def serverDestroy (s : State) (fd : Nat) : State × Out :=
  match serverGet cfg s fd with
  | none => (s, .failed .einval)
  | some i =>
    let s := s.setServer i { s.server i with fd := 0 }
    let s := (List.range cfg.listenNum).foldl
      (fun s j => if (s.listen i j).fd > 0 then (listenDestroy cfg s (s.listen i j).fd).1 else s) s
    ({ s.setServer i {} with listen := fun k l => if k = i then {} else s.listen k l }, .ok)

/-- `virtual_channel_destroy`. -/
def destroy (s : State) (fd : Nat) : State × Out :=
  match roleGet fd with
  | .none => (s, .failed .einval)
  | .client => clientDestroy cfg s fd
  | .listen => listenDestroy cfg s fd
  | .server => serverDestroy cfg s fd

inductive Event where
  | serverCreate (host : Option String) (port : Int) (rdSize wrSize : Nat)
  | clientCreate (rdSize wrSize : Nat)
  | connect (fd : Nat) (host : Option String) (port : Int)
  | accept (fd : Nat)
  | write (fd : Nat) (data : Bytes)
  | destroy (fd : Nat)
  deriving DecidableEq, Repr

def step (s : State) : Event → State × Out
  | .serverCreate host port rdSize wrSize => serverCreate cfg s host port rdSize wrSize
  | .clientCreate rdSize wrSize => clientCreate cfg s rdSize wrSize
  | .connect fd host port => connect cfg s fd host port
  | .accept fd => accept cfg s fd
  | .write fd data => write cfg s fd data
  | .destroy fd => destroy cfg s fd

def machine : Machine State Event Out where
  step s e := some (step cfg s e)

end Operations

end Qumios.VirtualChannel
