import Qumios.Lib.Ledger
import Qumios.Subdev.Device

/-! The four handlers of sub-device messages.

Each parses its message, looks for the entry of the table that unpacks it, unpacks, tells the receiver and
replies. All of its errors lead to one exit, which calls `unpack_free` of the entry and deletes the tree. -/
namespace Qumios.Subdev

open LittleEndian

variable {Json : Type} [Cjson Json]

/-! ### What a handler has to do with -/

/-- `qm_iot_subdev_state_t`. -/
structure DevState where
  devType : Int
  did : Nat
  state : Int
  rssi : Int
  ttl : Nat
  deriving DecidableEq, Repr

/-- `qm_iot_subdev_recv_t`. The mesh of a reply is the bytes of `qm_iot_subdev_ble_mesh_t` in front of the pointer. -/
inductive Packet where
  | topoReply (code msgId type : Int) (mesh : Memory) (devs : List MeshDev)
  | addNotify (msgId type : Int) (devNum : Nat) (devs : List MeshDev)
  | delNotify (msgId type : Int) (devNum : Nat) (dids : List Nat)
  | stateNotify (msgId : Int) (devNum : Nat) (states : List DevState)

inductive Event where
  | received (packet : Packet)
  | published (method : String) (msgId : Int)

/-- What a handler allocates: the tree, the array of the devices, the text of the reply. -/
inductive Block where
  | root | devices | payload
  deriving DecidableEq, Repr

inductive Fault where
  | nullPointer | badFree
  deriving DecidableEq, Repr

/-- The heap, whether an allocation fails (by how many were asked for before), whether there is a receiver, and what has
been told to the outside. -/
structure World where
  heap : Ledger Block
  fails : Nat → Bool
  asked : Nat
  receiver : Bool
  events : List Event

namespace World

def malloc (w : World) (block : Block) : Option Nat × World :=
  if w.fails w.asked then (none, { w with asked := w.asked + 1 })
  else (some w.heap.next, { w with asked := w.asked + 1, heap := w.heap.malloc block })

def free (w : World) (number : Nat) : Except Fault World :=
  match w.heap.free number with
  | none => .error .badFree
  | some heap => .ok { w with heap := heap }

/-- `recv_handler`, if there is one. -/
def receive (w : World) (packet : Packet) : World :=
  if w.receiver then { w with events := w.events ++ [.received packet] } else w

def publish (w : World) (method : String) (msgId : Int) : World :=
  { w with events := w.events ++ [.published method msgId] }

end World

/-! ### The table -/

inductive RecvType where
  | stateNotify | stateReqReply | topoGetReply | topoAddNotify | topoDelNotify
  deriving DecidableEq, Repr

/-- `QM_IOT_SUBDEV_TYPE_NONE`, `QM_IOT_SUBDEV_TYPE_BLE_MESH` and `QM_IOT_SUBDEV_TYPE_MAX`: a message brings any `int`. -/
def typeNone : Int := 0
def typeBleMesh : Int := 1
def typeMax : Int := 2

/-- `subdev_handler_t`; the functions of an entry are those for its kind of message. -/
structure Entry where
  recvType : RecvType
  subdevType : Int
  deriving DecidableEq, Repr

/-- `g_subdev_handler`. -/
def subdevHandlers : List Entry :=
  [⟨.topoGetReply, typeBleMesh⟩, ⟨.topoAddNotify, typeBleMesh⟩, ⟨.topoDelNotify, typeBleMesh⟩,
    ⟨.stateNotify, typeNone⟩]

def subdevHandlerGet (recvType : RecvType) (subdevType : Int) : Except Errno Entry :=
  match subdevHandlers.find? fun e => e.recvType = recvType ∧ e.subdevType = subdevType with
  | none => .error .einval
  | some e => .ok e

/-! ### Unpacking -/

/-- What an unpack leaves: the pointer to the array, and the elements if it returns `QM_EOK`. -/
structure Unpacked (α : Type) where
  block : Option Nat
  result : Except Errno α

def arrayUnpack {α : Type} (unpack : Json → Except Errno α) (items : List Json) (w : World) :
    Unpacked (List α) × World :=
  match w.malloc .devices with
  | (none, w) => (⟨none, .error .enomem⟩, w)
  | (some block, w) => (⟨some block, unpackLoop unpack items⟩, w)

/-- `topo_get_ble_mesh_unpack` in front of the devices. In the record `net_key` is first, then `app_key`,
`unicast_addr` at 32 and `dev_num` at 34. -/
def topoGetHead (type : Int) (root : Json) : Except Errno (Memory × Json) := do
  if type ≤ typeNone ∨ typeMax ≤ type then .error .einval
  let commonKey ← objectGet root .commonKey
  let mesh ← hexInto commonKey .appKey (fun _ => 0) 16 16
  let mesh ← hexInto commonKey .netKey mesh 0 16
  let gatewayInfo ← objectGet root .gatewayInfo
  let mesh ← intInto gatewayInfo .unicastAddr mesh 32
  let devices ← objectGet root .devices
  pure (mesh, devices)

def topoGetBleMeshUnpack (type : Int) (root : Json) (w : World) : Unpacked (Memory × List MeshDev) × World :=
  match topoGetHead type root with
  | .error e => (⟨none, .error e⟩, w)
  | .ok (mesh, devices) =>
    -- a gateway without devices is no error
    if (children devices).length = 0 then (⟨none, .ok (mesh, [])⟩, w)
    else
      match arrayUnpack devUnpack (children devices) w with
      | (u, w) => (⟨u.block, u.result.map fun devs => (store 2 mesh 34 (children devices).length, devs)⟩, w)

/-- The unpack of a notification: an empty list is an error. -/
def notifyUnpack {α : Type} (unpack : Json → Except Errno α) (items : Except Errno Json) (w : World) :
    Unpacked (Nat × List α) × World :=
  match items with
  | .error e => (⟨none, .error e⟩, w)
  | .ok devices =>
    if (children devices).length = 0 then (⟨none, .error .einval⟩, w)
    else
      match arrayUnpack unpack (children devices) w with
      | (u, w) => (⟨u.block, u.result.map fun elements => ((children devices).length % 2 ^ 16, elements)⟩, w)

def topoAddBleMeshUnpack (root : Json) : World → Unpacked (Nat × List MeshDev) × World :=
  notifyUnpack devUnpack (objectGet root .devices)

def topoDelBleMeshUnpack (root : Json) : World → Unpacked (Nat × List Nat) × World :=
  notifyUnpack (fun json => do
    let did ← cjsonIntGet json .did
    pure (did % 2 ^ 32).toNat) (objectGet root .devices)

def stateNotifyUnpack (root : Json) : World → Unpacked (Nat × List DevState) × World :=
  notifyUnpack (fun json => do
    let devType ← cjsonIntGet json .devType
    let did ← cjsonIntGet json .did
    let state ← cjsonIntGet json .state
    pure ⟨devType, (did % 2 ^ 32).toNat, state, 0, 0⟩) (.ok root)

/-! ### The handlers -/

/-- `subdev_generic_reply`. -/
def subdevGenericReply (method : String) (msgId : Int) (w : World) : Except Fault World :=
  match w.malloc .payload with
  | (none, w) => .ok w
  | (some payload, w) => (w.publish method msgId).free payload

/-- A message of MQTT: whether it is a publication, and what the payload parses to. -/
structure Publication (Json : Type) where
  pub : Bool
  json : Option Json

/-- The beginning of a handler, up to the tree. -/
def parsed (m : Publication Json) (w : World) (handle : Nat → Json → World → Except Fault World) : Except Fault World :=
  if m.pub then
    match m.json with
    | none => .ok w
    | some json =>
      match w.malloc .root with
      | (none, w) => .ok w
      | (some root, w) => handle root json w
  else .ok w

/-- The exit. All the `unpack_free` free the array if there is one. -/
def exit (handler : Option Entry) (block : Option Nat) (root : Nat) (w : World) : Except Fault World :=
  match handler with
  | none => .error .nullPointer
  | some _ =>
    match block with
    | none => w.free root
    | some block => do
      let w ← w.free block
      w.free root

def withHead {α : Type} (head : Except Errno α) (root : Nat) (w : World) (handle : α → Except Fault World) :
    Except Fault World :=
  match head with
  | .error _ => exit none none root w
  | .ok h => handle h

/-- From the entry on. -/
def conclude {α : Type} (handler : Entry) (u : Unpacked α × World) (root : Nat)
    (tell : α → World → Except Fault World) : Except Fault World :=
  match u with
  | (⟨block, .error _⟩, w) => exit (some handler) block root w
  | (⟨block, .ok content⟩, w) => do
    let w ← tell content w
    exit (some handler) block root w

/-- What a handler knows when it has found the entry. -/
structure Head (Json : Type) where
  handler : Entry
  params : Json
  msgId : Int
  code : Int
  type : Int

def listGetReplyHead (json : Json) : Except Errno (Head Json) := do
  let msgId ← cjsonIntGet json .id
  let code ← cjsonIntGet json .code
  let params ← objectGet json .params
  let type ← cjsonIntGet params .devType
  let handler ← subdevHandlerGet .topoGetReply type
  pure ⟨handler, params, msgId, code, type⟩

/-- The heads of the notifications that devices were added or deleted. -/
def notifyHead (recvType : RecvType) (json : Json) : Except Errno (Head Json) := do
  let msgId ← cjsonIntGet json .id
  let params ← objectGet json .params
  let type ← cjsonIntGet params .devType
  if type ≤ typeNone ∨ typeMax ≤ type then .error .einval
  let handler ← subdevHandlerGet recvType type
  pure ⟨handler, params, msgId, 0, type⟩

def stateNotifyHead (json : Json) : Except Errno (Head Json) := do
  let msgId ← cjsonIntGet json .id
  let params ← objectGet json .params
  let handler ← subdevHandlerGet .stateNotify typeNone
  pure ⟨handler, params, msgId, 0, typeNone⟩

def listGetReplyBody (root : Nat) (w : World) (h : Head Json) : Except Fault World :=
  conclude h.handler (topoGetBleMeshUnpack h.type h.params w) root fun content w =>
    .ok (w.receive (.topoReply h.code h.msgId h.type content.1 content.2))

def addNotifyBody (root : Nat) (w : World) (h : Head Json) : Except Fault World :=
  conclude h.handler (topoAddBleMeshUnpack h.params w) root fun content w =>
    subdevGenericReply "addSubdevNotifyReply" h.msgId (w.receive (.addNotify h.msgId h.type content.1 content.2))

/-- The one handler that replies before it tells the receiver. -/
def delNotifyBody (root : Nat) (w : World) (h : Head Json) : Except Fault World :=
  conclude h.handler (topoDelBleMeshUnpack h.params w) root fun content w => do
    let w ← subdevGenericReply "delSubdevNotifyReply" h.msgId w
    pure (w.receive (.delNotify h.msgId h.type content.1 content.2))

def stateNotifyBody (root : Nat) (w : World) (h : Head Json) : Except Fault World :=
  conclude h.handler (stateNotifyUnpack h.params w) root fun content w =>
    subdevGenericReply "subdevStateNotifyReply" h.msgId (w.receive (.stateNotify h.msgId content.1 content.2))

def subdevListGetReplyHandler (m : Publication Json) (w : World) : Except Fault World :=
  parsed m w fun root json w => withHead (listGetReplyHead json) root w (listGetReplyBody root w)

def subdevAddNotifyHandler (m : Publication Json) (w : World) : Except Fault World :=
  parsed m w fun root json w => withHead (notifyHead .topoAddNotify json) root w (addNotifyBody root w)

def subdevDelNotifyHandler (m : Publication Json) (w : World) : Except Fault World :=
  parsed m w fun root json w => withHead (notifyHead .topoDelNotify json) root w (delNotifyBody root w)

def subdevStateNotifyHandler (m : Publication Json) (w : World) : Except Fault World :=
  parsed m w fun root json w => withHead (stateNotifyHead json) root w (stateNotifyBody root w)

/-- The four handlers. -/
inductive Handler where
  | listGetReply | addNotify | delNotify | stateNotify
  deriving DecidableEq, Repr

namespace Handler

/-- A handler on a message; what it tells to the outside is told of this message. -/
def run (h : Handler) (m : Publication Json) (w : World) : Except Fault World :=
  let w := { w with events := [] }
  match h with
  | listGetReply => subdevListGetReplyHandler m w
  | addNotify => subdevAddNotifyHandler m w
  | delNotify => subdevDelNotifyHandler m w
  | stateNotify => subdevStateNotifyHandler m w

def head : Handler → Json → Except Errno (Head Json)
  | listGetReply => listGetReplyHead
  | addNotify => notifyHead .topoAddNotify
  | delNotify => notifyHead .topoDelNotify
  | stateNotify => stateNotifyHead

def body : Handler → Nat → World → Head Json → Except Fault World
  | listGetReply => listGetReplyBody
  | addNotify => addNotifyBody
  | delNotify => delNotifyBody
  | stateNotify => stateNotifyBody

theorem run_eq (h : Handler) (m : Publication Json) (w : World) :
    h.run m w = parsed m { w with events := [] } fun root json w => withHead (h.head json) root w (h.body root w) := by
  cases h <;> rfl

end Handler

end Qumios.Subdev
