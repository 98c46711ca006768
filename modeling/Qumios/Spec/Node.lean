import Qumios.Spec.HexFrame

/-! Properties with their device and code, and the get and set messages in hex (`qm_spec_core.c`).

A get request lists properties, and the response has for each of them its code and value; the response to a set
request has the codes alone. Unpacking creates a property for each frame. One that is neither added to the operation
nor released is dropped: nothing points to it any more. -/
namespace Qumios.Spec
open Wire Buffer

/-! ### Operations -/

/-- `qm_spec_property_t`. -/
structure Node where
  property : Property
  did : UInt32
  code : Int8

/-- `qm_spec_property_creat`. -/
def Node.create : Node := ⟨.create, 0, 0⟩

def Node.xiid (n : Node) : UInt8 × UInt16 := n.property.xiid

/-- `qm_spec_property_operation_t`, over such properties. -/
structure NodeOperation where
  elementNum : UInt16
  nodes : List Node
  counted : elementNum = UInt16.ofNat nodes.length

namespace NodeOperation

def operation (op : NodeOperation) : Operation where
  elementNum := op.elementNum
  properties := op.nodes.map Node.property
  counted := by rw [op.counted, List.length_map]

theorem counted_nil : (0 : UInt16) = UInt16.ofNat ([] : List Node).length := rfl

/-- `qm_spec_property_operation_creat`. -/
def create : NodeOperation := ⟨0, [], counted_nil⟩

/-- `qm_spec_property_add` of a property that is not there. -/
def append (op : NodeOperation) (n : Node) : NodeOperation where
  elementNum := op.elementNum + 1
  nodes := op.nodes ++ [n]
  counted := by
    rw [op.counted, List.length_append]
    exact (UInt16.ofNat_add _ _).symm

/-- `qm_spec_property_add`; it refuses an id that is there. -/
def add (op : NodeOperation) (n : Node) : Option NodeOperation :=
  if op.operation.check n.property then none else some (op.append n)

end NodeOperation

/-! ### Unpacking -/

/-- What an unpack has made: the operation, and the properties that were dropped. -/
structure Unpacked where
  op : NodeOperation
  dropped : List Node

/-- The end of a round; the result of `qm_spec_property_add` is not looked at. -/
def Unpacked.put (u : Unpacked) (n : Node) : Unpacked :=
  match u.op.add n with
  | none => { u with dropped := u.dropped ++ [n] }
  | some op => { u with op := op }

/-- How a loop over a message ends: it reads behind the message, it takes more than so many rounds, or it comes
to its end. -/
inductive Outcome where
  | overread
  | running
  | done (u : Unpacked)

/-- The loop of `qm_spec_hex_get_unpack`, driven by the count. The identifier is taken as it lies in the message, low byte
first. `fails` tells whether the allocation for the frame at an index fails. -/
def getLoop (fails : Nat → Bool) (data : Bytes) : Nat → Nat → Unpacked → Outcome
  | 0, _, u => .done u
  | num + 1, index, u =>
    if fails index then .done u
    else
      match data.drop index with
      | siid :: low :: high :: _ =>
        let property := { Property.create with siid := siid, piid := UInt16.ofNat (low.toNat + 256 * high.toNat) }
        getLoop fails data num (index + 3) (u.put { Node.create with property := property })
      | _ => .overread

/-- `qm_spec_hex_get_unpack`. -/
def hexGetUnpack (fails : Nat → Bool) (data : Bytes) : Outcome :=
  match data with
  | [] => .overread
  | num :: _ => getLoop fails data num.toNat 1 ⟨.create, []⟩

/-- `qm_spec_property_pack_bytes` into a new property, where the allocation of a value may fail. -/
def packNew (format : UInt8) (pointer : Option Raw) (bytes : Bytes) : Value :=
  let value := { Property.create.value with format := format }
  match pointer with
  | some pointer => value.packBytes pointer bytes
  | none => if bytes.length < buffSize then value.packBytes (.ofBytes []) bytes else value

/-- The loop of `qm_spec_hex_set_unpack`: it compares the index with the length in front of a frame only. `pointer` is what
the allocation of a value returns. -/
def setLoopDropping (fails : Nat → Bool) (pointer : Nat → Option Raw) (data : Bytes) : Nat → Nat → Unpacked → Outcome
  | 0, _, _ => .running
  | rounds + 1, index, u =>
    if index < data.length then
      if fails index then .done u
      else
        match data.drop index with
        | siid :: piid₁ :: piid₂ :: len₁ :: len₂ :: rest =>
          let len := len₁.toNat * 256 + len₂.toNat
          if len = 0 then .done { u with dropped := u.dropped ++ [.create] }
          else
            match rest with
            | format :: rest =>
              if len ≤ rest.length then
                let property : Property :=
                  { siid := siid
                    piid := UInt16.ofNat (piid₁.toNat * 256 + piid₂.toNat)
                    value := packNew format (pointer index) (rest.take len) }
                setLoopDropping fails pointer data rounds (index + (headerLen + len))
                  (u.put { Node.create with property := property })
              else .overread
            | [] => .overread
        | _ => .overread
    else .done u

/-- `qm_spec_hex_set_unpack`, into the operation that is there. -/
def hexSetUnpackDropping (fails : Nat → Bool) (pointer : Nat → Option Raw) (op : NodeOperation) (data : Bytes) : Outcome :=
  setLoopDropping fails pointer data (data.length + 1) 1 ⟨op, []⟩

/-! ### Packing -/

/-- The size of `qm_spec_get_response_frame_t`. -/
def getHeaderLen : Nat := 7

/-- The first loop of `qm_spec_hex_get_pack`: `prop_num` is one byte. -/
def getMallocLen : Nat → List Node → Nat → Nat
  | 0, _, len => len
  | _ + 1, [], len => len
  | num + 1, n :: rest, len => getMallocLen num rest (len + (getHeaderLen + n.property.value.len.toNat))

/-- A round of the second loop. `qm_spec_property_unpack_bytes` stores the size as an `int` where `len` is: over `len`,
`format` and the first byte of the value. -/
def writeResponse (n : Node) (value : Bytes) (buff : Bytes) (index : Nat) : Bytes :=
  let buff := splice buff index [n.property.siid]
  let buff := splice buff (index + 1) (Width.two.put n.property.piid.toNat)
  let buff := splice buff (index + 3) [n.code.toUInt8]
  let buff := splice buff (index + 6) [n.property.value.format]
  let buff := splice buff (index + 4) [UInt8.ofNat value.length, UInt8.ofNat (value.length / 256), 0, 0]
  let buff := splice buff (index + 7) value
  splice buff (index + 4) (Width.two.put value.length)

/-- The second loop; `none` where it writes behind the buffer. -/
def getFill : List Node → Bytes → Nat → Option Bytes
  | [], buff, _ => some buff
  | n :: rest, buff, index =>
    match n.property.value.unpackBytes with
    | none => none
    | some value =>
      if index + 8 ≤ buff.length ∧ index + (getHeaderLen + value.length) ≤ buff.length then
        getFill rest (writeResponse n value buff index) (index + (getHeaderLen + value.length))
      else none

/-- `qm_spec_hex_get_pack`. -/
def hexGetPack (op : NodeOperation) : Option Updata :=
  let len := getMallocLen op.elementNum.toUInt8.toNat op.nodes 1
  let buff := splice (List.replicate (len + 1) 0) 0 [op.elementNum.toUInt8]
  match getFill op.nodes buff 1 with
  | none => none
  | some data => some ⟨data, len⟩

/-- The size of `qm_spec_set_response_frame_t`. -/
def setHeaderLen : Nat := 4

/-- The loop of `qm_spec_hex_set_pack`; `none` where it writes behind the buffer. -/
def setFill : List Node → Bytes → Nat → Option Bytes
  | [], buff, _ => some buff
  | n :: rest, buff, index =>
    let place := 1 + setHeaderLen * index
    if place + setHeaderLen ≤ buff.length then
      let buff := splice buff (place + 3) [n.code.toUInt8]
      let buff := splice buff place [n.property.siid]
      setFill rest (splice buff (place + 1) (Width.two.put n.property.piid.toNat)) (index + 1)
    else none

/-- `qm_spec_hex_set_pack`. The byte of the count is not in `malloc_len`: the increment is overwritten. -/
def hexSetPack (op : NodeOperation) : Option Updata :=
  let len := setHeaderLen * op.elementNum.toNat
  let buff := splice (List.replicate (len + 1) 0) 0 [op.elementNum.toUInt8]
  match setFill op.nodes buff 0 with
  | none => none
  | some data => some ⟨data, len⟩

end Qumios.Spec
