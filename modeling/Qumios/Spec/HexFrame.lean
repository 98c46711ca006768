import Qumios.Spec.Property

/-! What a report frame says is read back from it.

The report writes one frame for each property behind a count (`fill_frames`), and the
set request reads as many frames as there are bytes (`setLoop_frames`). Two things come
between them. The count that sizes the buffer is one byte, while the frames written are
all of the list's; and a value of just eight bytes, which `pack_bytes` puts behind a
pointer, is taken by `unpack_bytes` to lie in place. -/
namespace Qumios.Spec
open Wire Buffer List

/-! ### Values -/

theorem readPdata_stored (v : Value) (h : buffSize ≤ v.len.toNat) :
    ∃ bytes, v.readPdata = some bytes ∧ bytes.length = v.len.toNat := by
  obtain ⟨block, hp, hlen⟩ := v.stored h
  refine ⟨block.take v.len.toNat, ?_, length_take_of_le hlen⟩
  simp only [Value.readPdata, hp]
  exact if_pos hlen

theorem unpackBytesDirect_total (v : Value) :
    ∃ bytes, v.unpackBytesDirect = some bytes ∧ bytes.length = v.len.toNat := by
  rw [Value.unpackBytesDirect]
  by_cases h : v.len.toNat < buffSize
  · rw [if_pos h]
    exact ⟨_, rfl, length_take_of_le (by rw [v.raw.property]; exact Nat.le_of_lt h)⟩
  · rw [if_neg h]
    exact readPdata_stored v (Nat.not_lt.mp h)

theorem unpackBytes_eq_direct (v : Value) (h : v.len.toNat ≠ buffSize) : v.unpackBytes = v.unpackBytesDirect := by
  rw [Value.unpackBytes, Value.unpackBytesDirect]
  by_cases hlt : v.len.toNat < buffSize
  · rw [if_pos hlt, if_pos (Nat.le_of_lt hlt)]
  · rw [if_neg hlt, if_neg (by omega)]

/-- What is packed is read. -/
theorem packBytes_spec (v : Value) (pointer : Raw) {bytes : Bytes} (hpos : bytes.length ≠ 0)
    (hlen : bytes.length < 65536) :
    (v.packBytes pointer bytes).unpackBytesDirect = some bytes ∧
      (v.packBytes pointer bytes).len = UInt16.ofNat bytes.length ∧
      (v.packBytes pointer bytes).format = v.format := by
  have hnat : (UInt16.ofNat bytes.length).toNat = bytes.length := by
    exact Nat.mod_eq_of_lt hlen
  rw [Value.packBytes, if_neg hpos]
  by_cases h : bytes.length < buffSize
  · rw [dif_pos h]
    refine ⟨?_, rfl, rfl⟩
    simp only [Value.unpackBytesDirect, Value.packInline, hnat, if_pos h, Raw.ofBytes]
    rw [take_take, Nat.min_eq_left (Nat.le_of_lt h), take_left]
  · rw [dif_neg h]
    simp only [Value.unpackBytesDirect, Value.readPdata, hnat, if_neg h]
    simp

/-! ### What an element says -/

/-- An element, apart from how its value is stored. -/
structure Element where
  siid : UInt8
  piid : UInt16
  format : UInt8
  len : UInt16
  value : Option Bytes
  deriving DecidableEq, Repr

def Property.element (p : Property) : Element :=
  ⟨p.siid, p.piid, p.value.format, p.value.len, p.value.unpackBytesDirect⟩

def Property.xiid (p : Property) : UInt8 × UInt16 := (p.siid, p.piid)

def Operation.elements (op : Operation) : List Element := op.properties.map Property.element

def Property.payload (p : Property) : Bytes := p.value.unpackBytes.getD []

variable {p : Property} {ps : List Property} {op : Operation} {malloc : Nat → Raw}

theorem Property.payload_spec (p : Property) :
    p.value.unpackBytes = some p.payload ∧ p.payload.length = p.value.len.toNat := by
  have htotal : ∃ bytes, p.value.unpackBytes = some bytes ∧ bytes.length = p.value.len.toNat := by
    rw [Value.unpackBytes]
    by_cases h : p.value.len.toNat ≤ buffSize
    · rw [if_pos h]
      exact ⟨_, rfl, length_take_of_le (by rw [p.value.raw.property]; exact h)⟩
    · rw [if_neg h]
      exact readPdata_stored p.value (Nat.le_of_not_le h)
  obtain ⟨bytes, hbytes, hlen⟩ := htotal
  rw [Property.payload, hbytes]
  exact ⟨rfl, hlen⟩

theorem Property.payload_size (h : 0 < p.value.len) : p.payload.length ≠ 0 ∧ p.payload.length < 65536 := by
  rw [p.payload_spec.2]
  exact ⟨Nat.pos_iff_ne_zero.mp (UInt16.lt_iff_toNat_lt.mp h), p.value.len.toNat_lt⟩

/-! ### Writing -/

@[simp] theorem length_reportFrame (p : Property) (value : Bytes) :
    (reportFrame p value).length = headerLen + value.length := by
  simp [reportFrame, headerLen, Width.size]
  omega

def frames (ps : List Property) : Bytes := ps.flatMap fun p => reportFrame p p.payload

theorem frames_cons (p : Property) (ps : List Property) :
    frames (p :: ps) = reportFrame p p.payload ++ frames ps := rfl

/-- The first loop counts the bytes of the frames as far as it counts. -/
theorem mallocLen_frames (ps : List Property) (num len : Nat) :
    mallocLen num ps len = len + (frames (ps.take num)).length := by
  induction ps generalizing num len with
  | nil => cases num <;> rfl
  | cons p rest ih =>
    cases num with
    | zero => rfl
    | succ num =>
      rw [mallocLen, ih, take_succ_cons, frames_cons, length_append, length_reportFrame, p.payload_spec.2,
        Nat.add_assoc]

/-- The second loop writes them, if there is room. -/
theorem fill_frames (ps : List Property) {buff : Bytes} {index : Nat} (hindex : index ≤ buff.length) :
    fill ps buff index =
      if index + (frames ps).length ≤ buff.length then some (splice buff index (frames ps)) else none := by
  induction ps generalizing buff index with
  | nil => rw [fill, frames, flatMap_nil, splice_nil, length_nil, Nat.add_zero, if_pos hindex]
  | cons p rest ih =>
    rw [fill, p.payload_spec.1, frames_cons, length_append]
    dsimp only
    rw [← length_reportFrame p p.payload]
    by_cases hframe : index + (reportFrame p p.payload).length ≤ buff.length
    · have hlen := length_splice _ _ _ hframe
      rw [if_pos hframe, ih (hlen.symm ▸ hframe), hlen, splice_splice _ _ _ _ hindex, ← Nat.add_assoc]
    · rw [if_neg hframe, if_neg (by omega)]

theorem elementNum_toUInt8 (op : Operation) : op.elementNum.toUInt8.toNat = op.properties.length % 256 := by
  rw [op.counted, UInt16.toNat_toUInt8, UInt16.toNat_ofNat']
  omega

theorem frames_append (ps qs : List Property) : frames (ps ++ qs) = frames ps ++ frames qs := flatMap_append

theorem length_le_frames (ps : List Property) : headerLen * ps.length ≤ (frames ps).length := by
  induction ps with
  | nil => exact Nat.le_refl _
  | cons p rest ih =>
    rw [frames_cons, length_append, length_reportFrame, length_cons, Nat.mul_succ]
    omega

/-- The updata of an operation: the count, the frames and a zero, or a write behind the buffer. -/
theorem hexReportPack_frames (op : Operation) : hexReportPack op =
    if op.properties.length ≤ 255 then
      some ⟨op.elementNum.toUInt8 :: frames op.properties ++ [0], 1 + (frames op.properties).length⟩
    else none := by
  have hnum := elementNum_toUInt8 op
  have hbuff (n : Nat) : (splice (replicate (1 + n + 1) 0) 0 [op.elementNum.toUInt8]).length = 1 + n + 1 := by
    rw [length_splice _ _ _ (by simp), length_replicate]
  simp only [hexReportPack, mallocLen_frames, hnum]
  rw [fill_frames _ (by rw [hbuff]; omega), hbuff]
  by_cases hn : op.properties.length ≤ 255
  · have hone := splice_splice (replicate (1 + (frames op.properties).length + 1) 0) 0 [op.elementNum.toUInt8]
      (frames op.properties) (Nat.zero_le _)
    rw [take_of_length_le (by omega), if_pos (Nat.le_succ _), if_pos hn]
    dsimp only
    rw [show splice (splice _ 0 _) 1 _ = _ from hone, splice]
    simp [Nat.add_comm 1]
  · -- of the elements that were not counted the first does not fit
    have hsplit := congrArg length (frames_append (op.properties.take (op.properties.length % 256))
      (op.properties.drop (op.properties.length % 256)))
    have hrest := length_le_frames (op.properties.drop (op.properties.length % 256))
    rw [take_append_drop, length_append] at hsplit
    rw [length_drop, headerLen] at hrest
    rw [if_neg (by omega), if_neg hn]

/-! ### Reading -/

theorem readHeader_reportFrame (p : Property) (value rest : Bytes) (h : value.length < 65536) :
    readHeader (reportFrame p value ++ rest) =
      some (⟨p.siid, p.piid.toNat, value.length, p.value.format⟩, value ++ rest) := by
  have hpiid := Width.get_put (w := .two) (n := p.piid.toNat) p.piid.toNat_lt
  have hlen := Width.get_put (w := .two) (n := value.length) h
  simp only [reportFrame, readHeader, cons_append, append_assoc, hpiid, hlen]

def readBack (pointer : Raw) (p : Property) : Property where
  siid := p.siid
  piid := p.piid
  value := ({ Property.create.value with format := p.value.format } : Value).packBytes pointer p.payload

/-- What a report says of a property: the bytes `unpack_bytes` gives. -/
def Property.reported (p : Property) : Element := { p.element with value := p.value.unpackBytes }

theorem readBack_element (h : 0 < p.value.len) (pointer : Raw) : (readBack pointer p).element = p.reported := by
  obtain ⟨hbytes, hlen⟩ := p.payload_spec
  obtain ⟨hpos, hbound⟩ := Property.payload_size h
  obtain ⟨hvalue, hl, hf⟩ :=
    packBytes_spec { Property.create.value with format := p.value.format } pointer hpos hbound
  simp only [Property.reported, Property.element, readBack, hvalue, hl, hf, hbytes, hlen, UInt16.ofNat_toNat]

/-- One round of the reading loop: the frame at the index becomes an element. -/
theorem setLoop_frame {msg : Updata} {pre rest : Bytes} (h : 0 < p.value.len)
    (hdata : msg.data = pre ++ (reportFrame p p.payload ++ rest)) (hlen : pre.length < msg.len) (rounds : Nat)
    (op : Operation) :
    setLoop malloc msg (rounds + 1) pre.length op =
      setLoop malloc msg rounds (pre ++ reportFrame p p.payload).length (op.add (readBack (malloc pre.length) p)) := by
  obtain ⟨hpos, hbound⟩ := Property.payload_size h
  have hrest : p.payload.length ≤ p.payload.length + rest.length := Nat.le_add_right ..
  rw [setLoop, if_pos hlen, hdata, drop_left]
  simp only [readHeader_reportFrame p p.payload rest hbound, if_neg hpos, if_pos hrest, take_left,
    UInt16.ofNat_toNat, length_append, length_reportFrame]
  rfl

theorem check_eq_false : op.check p = false ↔ ∀ m ∈ op.properties, m.xiid ≠ p.xiid := by
  simp [Operation.check, Property.xiid, Prod.ext_iff]

theorem add_fresh (h : op.check p = false) : (op.add p).properties = op.properties ++ [p] := by
  rw [Operation.add, if_neg (by rw [h]; exact Bool.false_ne_true)]

/-- The reading loop takes in the frames, in order. -/
theorem setLoop_frames {msg : Updata} {pre tail : Bytes} {rounds : Nat} (h : ∀ p ∈ ps, 0 < p.value.len)
    (hids : (ps.map Property.xiid).Nodup) (hfresh : ∀ p ∈ ps, op.check p = false)
    (hdata : msg.data = pre ++ (frames ps ++ tail)) (hlen : msg.len = pre.length + (frames ps).length)
    (hrounds : ps.length < rounds) :
    ∃ op', setLoop malloc msg rounds pre.length op = some op' ∧ op'.elements = op.elements ++ ps.map Property.reported := by
  induction ps generalizing pre op rounds with
  | nil =>
    obtain ⟨rounds, rfl⟩ := Nat.exists_eq_succ_of_ne_zero (Nat.ne_of_gt hrounds)
    have hend : ¬ pre.length < msg.len := by
      rw [hlen]
      exact Nat.lt_irrefl _
    exact ⟨op, by rw [setLoop, if_neg hend], by simp⟩
  | cons p rest ih =>
    obtain ⟨rounds, rfl⟩ := Nat.exists_eq_succ_of_ne_zero (Nat.ne_of_gt (Nat.zero_lt_of_lt hrounds))
    have hp := h p (mem_cons_self ..)
    obtain ⟨hnew, hids⟩ := nodup_cons.mp hids
    rw [frames_cons, append_assoc] at hdata
    rw [frames_cons, length_append] at hlen
    have hpos : pre.length < msg.len := by
      rw [hlen, length_reportFrame, headerLen]
      omega
    have hadd : (op.add (readBack (malloc pre.length) p)).properties = op.properties ++ [readBack (malloc pre.length) p] :=
      add_fresh (hfresh p (mem_cons_self ..))
    have hfresh' : ∀ q ∈ rest, (op.add (readBack (malloc pre.length) p)).check q = false := by
      intro q hq
      rw [check_eq_false, hadd, forall_mem_append, forall_mem_singleton]
      exact ⟨check_eq_false.mp (hfresh q (mem_cons_of_mem _ hq)),
        fun heq => hnew (mem_map.mpr ⟨q, hq, heq.symm⟩)⟩
    rw [← append_assoc] at hdata
    obtain ⟨op', hloop, hel⟩ := ih (fun q hq => h q (mem_cons_of_mem _ hq)) hids hfresh' hdata
      (by rw [hlen, length_append, Nat.add_assoc]) (Nat.lt_of_succ_lt_succ hrounds)
    rw [append_assoc] at hdata
    refine ⟨op', (setLoop_frame hp hdata hpos rounds op).trans hloop, ?_⟩
    rw [hel, Operation.elements, hadd]
    simp [readBack_element hp, Operation.elements]

/-! ### There and back -/

/-- **A report is read back**, for every operation with pairwise distinct ids and values of at least one byte, exactly
if it has at most 255 elements and `unpack_bytes` gives the bytes that are stored, which it does for every value that
has not just the size of the buffer: the frame is written inside its memory, and unpacking it gives the same elements
in the same order. -/
theorem report_read_back (op : Operation) (malloc : Nat → Raw) (hids : (op.properties.map Property.xiid).Nodup)
    (hpos : ∀ p ∈ op.properties, 0 < p.value.len) :
    (∃ msg op', hexReportPack op = some msg ∧ hexSetUnpack malloc msg = some op' ∧ op'.elements = op.elements) ↔
      op.properties.length ≤ 255 ∧
        ∀ p ∈ op.properties, p.value.len.toNat = buffSize → p.value.unpackBytes = p.value.unpackBytesDirect := by
  have hlen := length_le_frames op.properties
  rw [headerLen] at hlen
  have hunpack : ∃ op', hexSetUnpack malloc
      ⟨op.elementNum.toUInt8 :: frames op.properties ++ [0], 1 + (frames op.properties).length⟩ = some op' ∧
        op'.elements = [] ++ op.properties.map Property.reported :=
    setLoop_frames hpos hids (fun _ _ => rfl)
      (show _ = [op.elementNum.toUInt8] ++ (frames op.properties ++ [0]) from rfl) rfl
      (Nat.lt_succ_of_le (Nat.le_add_left_of_le (by omega)))
  obtain ⟨op', hloop, hel⟩ := hunpack
  have hsame : op'.elements = op.elements ↔
      ∀ p ∈ op.properties, p.value.len.toNat = buffSize → p.value.unpackBytes = p.value.unpackBytesDirect := by
    rw [hel, nil_append, Operation.elements, map_inj_left]
    refine forall₂_congr fun p _ => ⟨fun h _ => congrArg Element.value h, fun h => ?_⟩
    have hvalue : p.value.unpackBytes = p.value.unpackBytesDirect := by
      by_cases hsize : p.value.len.toNat = buffSize
      · exact h hsize
      · exact unpackBytes_eq_direct p.value hsize
    rw [Property.reported, hvalue]
    rfl
  rw [hexReportPack_frames, ← hsame]
  constructor
  · rintro ⟨msg, op'', hpack, hread, heq⟩
    split at hpack
    · next hn =>
      cases hpack
      cases hread.symm.trans hloop
      exact ⟨hn, heq⟩
    · cases hpack
  · rintro ⟨hn, heq⟩
    exact ⟨_, op', if_pos hn, hloop, heq⟩

def address : Raw := ⟨[0x00, 0x10, 0x00, 0x20, 0, 0, 0, 0], rfl⟩

def stringProperty (piid : UInt16) (bytes : Bytes) : Property where
  siid := 1
  piid := piid
  value := ({ Property.create.value with format := 11 } : Value).packBytes address bytes

def threeElements : Operation :=
  ((Operation.create.add ⟨1, 1, .packUint16 500⟩).add (stringProperty 2 [1, 2, 3])).add
    (stringProperty 3 [1, 2, 3, 4, 5, 6, 7, 8, 9])

theorem report_read_back_three :
    threeElements.elements = [⟨1, 1, 4, 2, some [1, 244]⟩, ⟨1, 2, 11, 3, some [1, 2, 3]⟩,
      ⟨1, 3, 11, 9, some [1, 2, 3, 4, 5, 6, 7, 8, 9]⟩] ∧
    ∃ msg op', hexReportPack threeElements = some msg ∧ hexSetUnpack (fun _ => address) msg = some op' ∧
      op'.elements = threeElements.elements :=
  ⟨by decide +kernel, (report_read_back threeElements (fun _ => address) (by decide +kernel) (by decide +kernel)).mpr
    (by decide +kernel)⟩

def eightBytes : Operation := Operation.create.add (stringProperty 1 [1, 2, 3, 4, 5, 6, 7, 8])

def manyElements : Operation where
  elementNum := 256
  properties := (List.range 256).map fun n => ⟨1, UInt16.ofNat n, .packUint16 500⟩
  counted := by simp

theorem manyElements_ids : (manyElements.properties.map Property.xiid).Nodup := by
  simp only [manyElements, map_map]
  refine nodup_range.map_on fun n hn m hm h => ?_
  have hn := mem_range.mp hn
  have hm := mem_range.mp hm
  have heq := congrArg (fun xiid : UInt8 × UInt16 => xiid.2.toNat) h
  simp only [Function.comp_apply, Property.xiid, UInt16.toNat_ofNat'] at heq
  omega

theorem manyElements_len : ∀ p ∈ manyElements.properties, 0 < p.value.len := by
  intro p hp
  obtain ⟨n, _, rfl⟩ := mem_map.mp hp
  exact show 0 < (Value.packUint16 500).len by decide

/-- A value of eight bytes is reported as the pointer to it, and 256 elements are written into
a buffer of two bytes. -/
theorem report_not_read_back :
    ((eightBytes.properties.map Property.xiid).Nodup ∧ (∀ p ∈ eightBytes.properties, 0 < p.value.len) ∧
      eightBytes.elements = [⟨1, 1, 11, 8, some [1, 2, 3, 4, 5, 6, 7, 8]⟩] ∧
      ((hexReportPack eightBytes).bind (hexSetUnpack fun _ => address)).map Operation.elements =
        some [⟨1, 1, 11, 8, some [0x00, 0x10, 0x00, 0x20, 0, 0, 0, 0]⟩]) ∧
    ((manyElements.properties.map Property.xiid).Nodup ∧ (∀ p ∈ manyElements.properties, 0 < p.value.len) ∧
      hexReportPack manyElements = none) :=
  ⟨by decide +kernel, manyElements_ids, manyElements_len, by decide +kernel⟩

end Qumios.Spec
