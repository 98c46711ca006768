import Qumios.Lib.Wire

/-! Properties and their hex frames (`qm_spec_api.c`, `qm_spec_core.c`).

A value lies in a union: eight bytes in place, or a pointer to a block of the heap. The
writer of a value (`pack_bytes`) and its readers (`unpack_bytes`, `unpack_bytes_direct`)
each tell from the length which of the two it is. Memory does not run out; the bytes of
a pointer are whatever the allocator returns. -/
namespace Qumios.Spec
open Wire Buffer

/-- `CONFIG_QM_SPEC_BUFF_SIZE`. -/
def buffSize : Nat := 8

def Raw : Type := { bytes : Bytes // bytes.length = buffSize }

instance : DecidableEq Raw := inferInstanceAs (DecidableEq { bytes : Bytes // bytes.length = buffSize })

/-- `memset(bytes, 0, 8)` and a copy over it. -/
def Raw.ofBytes (data : Bytes) : Raw :=
  ⟨(data ++ List.replicate buffSize 0).take buffSize, by simp⟩

/-- `qm_spec_property_value_t`, with the block that the pointer in the union points to. A
length of eight or more belongs to a pointer. -/
structure Value where
  len : UInt16
  format : UInt8
  raw : Raw
  pdata : Option Bytes
  stored : buffSize ≤ len.toNat → ∃ block, pdata = some block ∧ len.toNat ≤ block.length

/-- `qm_spec_property_t`: the fields of the frame. -/
structure Property where
  siid : UInt8
  piid : UInt16
  value : Value

/-- `qm_spec_property_creat`. -/
def Property.create : Property where
  siid := 0
  piid := 0
  value :=
    { len := 0
      format := 0
      raw := .ofBytes []
      pdata := none
      stored := by decide }

namespace Value

/-- A number of one, two or four bytes, which stays in place. -/
def packInline (format : UInt8) (data : Bytes) (h : data.length < buffSize) : Value where
  len := UInt16.ofNat data.length
  format := format
  raw := .ofBytes data
  pdata := none
  stored hlen := by
    have : data.length % 65536 = data.length := Nat.mod_eq_of_lt (Nat.lt_trans h (by decide))
    rw [UInt16.toNat_ofNat', this] at hlen
    exact absurd hlen (Nat.not_le.mpr h)

/-- `qm_spec_property_pack_uint16`. -/
def packUint16 (n : UInt16) : Value := packInline 4 (Width.two.put n.toNat) (by simp [Width.size, buffSize])

/-- `qm_spec_property_pack_bytes`, where an allocation returns `pointer`. -/
def packBytes (v : Value) (pointer : Raw) (bytes : Bytes) : Value :=
  if bytes.length = 0 then v
  else if h : bytes.length < buffSize then packInline v.format bytes h
  else
    { len := UInt16.ofNat bytes.length
      format := v.format
      raw := pointer
      pdata := some (bytes ++ [0])
      stored _ := by
        refine ⟨_, rfl, ?_⟩
        rw [UInt16.toNat_ofNat', List.length_append]
        exact Nat.le_trans (Nat.mod_le _ _) (Nat.le_add_right _ _) }

/-- `memcpy(…, pdata, len)`; `none` where the union holds no pointer to so many bytes. -/
def readPdata (v : Value) : Option Bytes :=
  match v.pdata with
  | some block => if v.len.toNat ≤ block.length then some (block.take v.len.toNat) else none
  | none => none

/-- `qm_spec_property_unpack_bytes`. -/
def unpackBytes (v : Value) : Option Bytes :=
  if v.len.toNat ≤ buffSize then some (v.raw.val.take v.len.toNat) else v.readPdata

/-- `qm_spec_property_unpack_bytes_direct`. -/
def unpackBytesDirect (v : Value) : Option Bytes :=
  if v.len.toNat < buffSize then some (v.raw.val.take v.len.toNat) else v.readPdata

end Value

/-- `qm_spec_property_operation_t`. -/
structure Operation where
  elementNum : UInt16
  properties : List Property
  counted : elementNum = UInt16.ofNat properties.length

/-- `qm_spec_property_operation_creat`. -/
def Operation.create : Operation where
  elementNum := 0
  properties := []
  counted := rfl

/-- `qm_spec_property_check`. -/
def Operation.check (op : Operation) (p : Property) : Bool :=
  op.properties.any fun m => m.siid == p.siid && m.piid == p.piid

/-- `qm_spec_property_add`. -/
def Operation.add (op : Operation) (p : Property) : Operation :=
  if op.check p then op
  else
    { elementNum := op.elementNum + 1
      properties := op.properties ++ [p]
      counted := by
        rw [op.counted, List.length_append]
        exact (UInt16.ofNat_add _ _).symm }

/-- The size of `qm_spec_report_frame_t` and of `qm_spec_set_request_frame_t`. -/
def headerLen : Nat := 6

/-- The first loop of `qm_spec_hex_report_pack`: `prop_num` is one byte. -/
def mallocLen : Nat → List Property → Nat → Nat
  | 0, _, len => len
  | _ + 1, [], len => len
  | num + 1, p :: rest, len => mallocLen num rest (len + (headerLen + p.value.len.toNat))

/-- `qm_spec_report_frame_t` with its value. -/
def reportFrame (p : Property) (value : Bytes) : Bytes :=
  p.siid :: (Width.two.put p.piid.toNat ++ (Width.two.put value.length ++ p.value.format :: value))

/-- The second loop; `none` where it writes behind the buffer. -/
def fill : List Property → Bytes → Nat → Option Bytes
  | [], buff, _ => some buff
  | p :: rest, buff, index =>
    match p.value.unpackBytes with
    | none => none
    | some value =>
      if index + (headerLen + value.length) ≤ buff.length then
        fill rest (splice buff index (reportFrame p value)) (index + (headerLen + value.length))
      else none

/-- `updata` and `updata_len`. -/
structure Updata where
  data : Bytes
  len : Nat
  deriving DecidableEq, Repr

/-- `qm_spec_hex_report_pack`. -/
def hexReportPack (op : Operation) : Option Updata :=
  let len := mallocLen op.elementNum.toUInt8.toNat op.properties 1
  let buff := splice (List.replicate (len + 1) 0) 0 [op.elementNum.toUInt8]
  match fill op.properties buff 1 with
  | none => none
  | some data => some ⟨data, len⟩

/-- `qm_spec_set_request_frame_t`. -/
structure Header where
  siid : UInt8
  piid : Nat
  len : Nat
  format : UInt8

/-- Reads a header, and leaves what is behind it. -/
def readHeader : Bytes → Option (Header × Bytes)
  | [] => none
  | siid :: rest =>
    match Width.two.get rest with
    | none => none
    | some (piid, rest) =>
      match Width.two.get rest with
      | some (len, format :: rest) => some (⟨siid, piid, len, format⟩, rest)
      | _ => none

/-- The loop of `qm_spec_hex_set_unpack`. `none` if it reads behind the data, or takes more
than so many rounds; `malloc` gives the pointer of an allocation for the element at an index. -/
def setLoop (malloc : Nat → Raw) (msg : Updata) : Nat → Nat → Operation → Option Operation
  | 0, _, _ => none
  | rounds + 1, index, op =>
    if index < msg.len then
      match readHeader (msg.data.drop index) with
      | none => none
      | some (frame, rest) =>
        if frame.len = 0 then some op
        else if frame.len ≤ rest.length then
          let value := { Property.create.value with format := frame.format }
          let property : Property :=
            { siid := frame.siid
              piid := UInt16.ofNat frame.piid
              value := value.packBytes (malloc index) (rest.take frame.len) }
          setLoop malloc msg rounds (index + (headerLen + frame.len)) (op.add property)
        else none
    else some op

/-- `qm_spec_hex_set_unpack`, into an operation of its own. -/
def hexSetUnpack (malloc : Nat → Raw) (msg : Updata) : Option Operation :=
  setLoop malloc msg (msg.len + 1) 1 .create

end Qumios.Spec
