import Qumios.Spec.HexFrame

/-! The copy of a property value, with which reports to the cloud are merged (`qm_spec_property_copy`).

What a value says is its format and its bytes, wherever the union keeps them. The copy writes the union
of its destination over that of the source through `qm_spec_property_pack_bytes`. -/
namespace Qumios.Pub

/-- What the value of a property says. -/
structure Value where
  format : UInt8
  bytes : Bytes
  deriving DecidableEq, Repr

/-- `qm_spec_property_copy`: `qm_spec_property_pack_bytes` refuses a value without bytes. -/
def Value.copy (dst src : Value) : Value := ⟨src.format, if src.bytes = [] then dst.bytes else src.bytes⟩

/-- What a value in the union of `qm_spec_property_value_t` says. -/
def Value.of (v : Spec.Value) : Value := ⟨v.format, v.unpackBytesDirect.getD []⟩

/-- `qm_spec_property_copy` over that union, where an allocation returns `pointer`. -/
def propertyCopy (dst src : Spec.Value) (pointer : Spec.Raw) : Spec.Value :=
  let dst := { dst with format := src.format }
  if dst.unpackBytesDirect = src.unpackBytesDirect then dst
  else dst.packBytes pointer (src.unpackBytesDirect.getD [])

/-- **A copy is a copy of what the value says**: its format, and its bytes as `qm_spec_property_unpack_bytes_direct`
reads them. -/
theorem of_propertyCopy (dst src : Spec.Value) (pointer : Spec.Raw) :
    Value.of (propertyCopy dst src pointer) = (Value.of dst).copy (Value.of src) := by
  obtain ⟨bytes, hbytes, hlen⟩ := Spec.unpackBytesDirect_total src
  have hdst : ({ dst with format := src.format } : Spec.Value).unpackBytesDirect = dst.unpackBytesDirect := rfl
  simp only [propertyCopy, Value.copy, Value.of, hbytes, hdst, Option.getD_some]
  split
  case isTrue heq => rw [hdst, heq]; simp
  case isFalse =>
    by_cases hempty : bytes = []
    · simp [hempty, Spec.Value.packBytes, hdst]
    · have hpos : bytes.length ≠ 0 := fun h => hempty (List.length_eq_zero_iff.mp h)
      have hbound : bytes.length < 65536 := hlen ▸ src.len.toNat_lt
      obtain ⟨hdirect, -, hformat⟩ :=
        Spec.packBytes_spec { dst with format := src.format } pointer hpos hbound
      rw [hdirect, hformat, if_neg hempty]
      rfl

end Qumios.Pub
