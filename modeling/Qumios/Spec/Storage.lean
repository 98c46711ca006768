import Qumios.Lib.Ledger
import Qumios.Spec.Property

/-! Properties in memory (`qm_spec_api.c`).

The union of a value is eight bytes in place or a pointer to a block of the heap, and nothing in it tells which: every
function asks the length, and each in its own words. `pack_bytes` keeps fewer than eight bytes in place, and so do
`unpack_string` and `unpack_bytes_direct` read them; `unpack_bytes` reads eight bytes in place too, and whatever frees a
value leaves one of eight bytes alone. To read through what is no pointer, or to free what is not live, is a fault. -/
namespace Qumios.Spec.Storage
open Wire Function

/-! ### Memory -/

/-- The union of `qm_spec_property_value_t`, with the number of the block that `pdata` points to. -/
inductive Union where
  | bytes (raw : Raw)
  | pdata (block : Nat)
  deriving DecidableEq

/-- `qm_spec_property_t`. -/
structure Cell where
  did : UInt32
  siid : UInt8
  piid : UInt16
  code : Int8
  format : UInt8
  len : UInt16
  union : Union

def Cell.zero : Cell := ⟨0, 0, 0, 0, 0, 0, .bytes (.ofBytes [])⟩

/-- Properties by their handles, and the blocks of values. -/
structure Memory where
  next : Nat
  cells : Nat → Option Cell
  blocks : Ledger Bytes
  fresh : ∀ p, next ≤ p → cells p = none

namespace Memory

theorem ne_next {m : Memory} {p : Nat} (h : (m.cells p).isSome) : p ≠ m.next := fun hsame => by
  rw [hsame, m.fresh m.next (Nat.le_refl _)] at h
  cases h

def empty : Memory := ⟨0, fun _ => none, .empty, fun _ _ => rfl⟩

/-- Another cell, or none, under a handle that there is. -/
def put (m : Memory) (p : Nat) (c : Option Cell) (blocks : Ledger Bytes) : Memory where
  next := m.next
  cells := update m.cells p ((m.cells p).bind fun _ => c)
  blocks := blocks
  fresh q hq := by
    by_cases h : q = p
    · rw [h, update_self, ← h, m.fresh q hq]
      rfl
    · rw [update_of_ne h, m.fresh q hq]

/-- `qm_spec_property_creat`. -/
def create (m : Memory) : Memory where
  next := m.next + 1
  cells := update m.cells m.next (some .zero)
  blocks := m.blocks
  fresh q hq := by rw [update_of_ne (Nat.ne_of_gt hq), m.fresh q (Nat.le_of_succ_le hq)]

end Memory

/-! ### Reading

`address` is how a pointer to a block lies in the union. -/

section

variable (address : Nat → Raw)

def Union.raw : Union → Raw
  | .bytes raw => raw
  | .pdata block => address block

namespace Cell

/-- `memcpy(…, pdata, len)`; `none` where the union holds no pointer to so many bytes. -/
def readPdata (c : Cell) (blocks : Ledger Bytes) : Option Bytes :=
  match c.union with
  | .bytes _ => none
  | .pdata b =>
    match blocks.read b with
    | none => none
    | some block => if c.len.toNat ≤ block.length then some (block.take c.len.toNat) else none

/-- `qm_spec_property_unpack_bytes`; the size is that of the bytes. -/
def unpackBytes (c : Cell) (blocks : Ledger Bytes) : Option Bytes :=
  if c.len.toNat ≤ buffSize then some ((c.union.raw address).val.take c.len.toNat) else c.readPdata blocks

/-- `qm_spec_property_unpack_bytes_direct`. -/
def unpackBytesDirect (c : Cell) (blocks : Ledger Bytes) : Option Bytes :=
  if c.len.toNat < buffSize then some ((c.union.raw address).val.take c.len.toNat) else c.readPdata blocks

/-- `qm_spec_property_unpack_string`: the same bytes and a NUL. -/
def unpackString (c : Cell) (blocks : Ledger Bytes) : Option Bytes :=
  (c.unpackBytesDirect address blocks).map (· ++ [0])

/-! ### Writing -/

/-- What stands in front of every packing, and in `qm_spec_property_delete`. -/
def release (c : Cell) (blocks : Ledger Bytes) : Option (Ledger Bytes) :=
  if buffSize < c.len.toNat then
    match c.union with
    | .bytes _ => none
    | .pdata b => blocks.free b
  else some blocks

/-- The union behind it: `pdata = NULL`, or as it was. -/
def released (c : Cell) : Raw := if buffSize < c.len.toNat then .ofBytes [] else c.union.raw address

end Cell

theorem length_setFirst (raw : Raw) (v : UInt8) : (v :: raw.val.tail).length = buffSize := by
  rw [List.length_cons, List.length_tail, raw.property]
  rfl

/-- `bytes[0] = v`. -/
def setFirst (raw : Raw) (v : UInt8) : Raw := ⟨v :: raw.val.tail, length_setFirst raw v⟩

namespace Memory

/-- A number: its format, the release, and the union. -/
def packInPlace (m : Memory) (p : Nat) (format : UInt8) (len : UInt16) (raw : Cell → Raw) : Option Memory :=
  match m.cells p with
  | none => none
  | some c =>
    match c.release m.blocks with
    | none => none
    | some blocks => some (m.put p (some { c with format := format, len := len, union := .bytes (raw c) }) blocks)

/-- `qm_spec_property_pack_uint8`: the bytes behind the first one stay. -/
def packUint8 (m : Memory) (p : Nat) (v : UInt8) : Option Memory :=
  m.packInPlace p 2 1 fun c => setFirst (c.released address) v

/-- `qm_spec_property_pack_uint16`. -/
def packUint16 (m : Memory) (p : Nat) (v : UInt16) : Option Memory :=
  m.packInPlace p 4 2 fun _ => .ofBytes (Width.two.put v.toNat)

/-- `qm_spec_property_pack_uint32`. -/
def packUint32 (m : Memory) (p : Nat) (v : UInt32) : Option Memory :=
  m.packInPlace p 6 4 fun _ => .ofBytes (Width.two.put (v.toNat / 65536) ++ Width.two.put (v.toNat % 65536))

/-- `qm_spec_property_pack_float32`, of a float that lies in memory as these four bytes. -/
def packFloat32 (m : Memory) (p : Nat) (b₀ b₁ b₂ b₃ : UInt8) : Option Memory :=
  m.packInPlace p 9 4 fun _ => .ofBytes [b₀, b₁, b₂, b₃]

/-- `qm_spec_property_pack_bytes`; without bytes it returns an error and changes nothing. -/
def packBytes (m : Memory) (p : Nat) (bytes : Bytes) : Option Memory :=
  match m.cells p with
  | none => none
  | some c =>
    if bytes.length = 0 then some m
    else
      match c.release m.blocks with
      | none => none
      | some blocks =>
        let len := UInt16.ofNat bytes.length
        if bytes.length < buffSize then
          some (m.put p (some { c with len := len, union := .bytes (.ofBytes bytes) }) blocks)
        else
          some (m.put p (some { c with len := len, union := .pdata blocks.next }) (blocks.malloc (bytes ++ [0])))

/-- `property->value.property_format = format`. -/
def setFormat (m : Memory) (p : Nat) (format : UInt8) : Memory :=
  m.put p ((m.cells p).map fun c => { c with format := format }) m.blocks

/-- `qm_spec_property_pack_string`. -/
def packString (m : Memory) (p : Nat) (bytes : Bytes) : Option Memory :=
  (m.packBytes p bytes).map (·.setFormat p 11)

/-- `qm_spec_property_pack_int8`. -/
def packInt8 (m : Memory) (p : Nat) (v : Int8) : Option Memory :=
  (m.packUint8 address p v.toUInt8).map (·.setFormat p 1)

/-- `qm_spec_property_pack_int16`. -/
def packInt16 (m : Memory) (p : Nat) (v : Int16) : Option Memory :=
  (m.packUint16 p v.toUInt16).map (·.setFormat p 3)

/-- `qm_spec_property_pack_int32`. -/
def packInt32 (m : Memory) (p : Nat) (v : Int32) : Option Memory :=
  (m.packUint32 p v.toUInt32).map (·.setFormat p 5)

/-- `qm_spec_property_pack_number`. -/
def packNumber (m : Memory) (p : Nat) (v : Int32) : Option Memory := (m.packInt32 p v).map (·.setFormat p 25)

/-- `qm_spec_property_pack_bool`. -/
def packBool (m : Memory) (p : Nat) (v : UInt8) : Option Memory := (m.packUint8 address p v).map (·.setFormat p 0)

/-- `qm_spec_property_copy`. The code stays as it is, and what packing returns is not looked at. The source is read in
front of the release: no two properties have one block. -/
def copy (m : Memory) (d s : Nat) : Option Memory :=
  match m.cells d, m.cells s with
  | some dst, some src =>
    let dst := { dst with did := src.did, siid := src.siid, piid := src.piid, format := src.format }
    let m := m.put d (some dst) m.blocks
    match dst.unpackBytesDirect address m.blocks, src.unpackBytesDirect address m.blocks with
    | some destBytes, some srcBytes =>
      if destBytes.length = srcBytes.length then
        if destBytes ≠ srcBytes then m.packBytes d srcBytes else some m
      else m.packBytes d srcBytes
    | _, _ => none
  | _, _ => none

/-- `qm_spec_property_delete`. -/
def delete (m : Memory) (p : Nat) : Option Memory :=
  match m.cells p with
  | none => none
  | some c =>
    match c.release m.blocks with
    | none => none
    | some blocks => some (m.put p none blocks)

end Memory

end

end Qumios.Spec.Storage
