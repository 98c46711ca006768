import Qumios.Spec.Unpack

/-! The responses to get and set requests.

Each is a count and a frame for each property, written one behind the other into zeros (`getFill_frames`,
`setFill_frames`). The frame of a get response has the bytes of the identifier in the order opposite to that of the
request, and a format of zero, which the size of the value has been stored over. The response to a set request is
announced one byte too short. -/
namespace Qumios.Spec
open Wire Buffer List

/-! ### The response to a set request -/

/-- `qm_spec_set_response_frame_t`. -/
def setFrame (n : Node) : Bytes := n.property.siid :: (Width.two.put n.property.piid.toNat ++ [n.code.toUInt8])

def setFrames (ns : List Node) : Bytes := ns.flatMap setFrame

theorem length_setFrames (ns : List Node) : (setFrames ns).length = setHeaderLen * ns.length := by
  induction ns with
  | nil => rfl
  | cons n rest ih =>
    have hframe : (setFrame n).length = setHeaderLen := rfl
    rw [setFrames, flatMap_cons, length_append, ← setFrames, ih, hframe, length_cons, Nat.mul_succ,
      Nat.add_comm]

/-- The loop fills the buffer with the frames. -/
theorem setFill_frames (ns : List Node) (pre : Bytes) (index : Nat) (hpre : pre.length = 1 + setHeaderLen * index) :
    setFill ns (pre ++ replicate (setHeaderLen * ns.length) 0) index = some (pre ++ setFrames ns) := by
  induction ns generalizing pre index with
  | nil => rfl
  | cons n rest ih =>
    have hzeros : replicate (setHeaderLen * (n :: rest).length) (0 : UInt8) =
        0 :: 0 :: 0 :: 0 :: replicate (setHeaderLen * rest.length) 0 := by
      rfl
    have hroom : pre.length + setHeaderLen ≤
        (pre ++ 0 :: 0 :: 0 :: 0 :: replicate (setHeaderLen * rest.length) (0 : UInt8)).length := by
      simp [setHeaderLen]
    have hframe (tail : Bytes) :
        splice (splice (splice (pre ++ 0 :: 0 :: 0 :: 0 :: tail) (pre.length + 3) [n.code.toUInt8]) pre.length
          [n.property.siid]) (pre.length + 1) (Width.two.put n.property.piid.toNat) = pre ++ setFrame n ++ tail := by
      rw [splice_append, show splice _ pre.length _ = _ from splice_append pre _ 0 _, splice_append, append_assoc]
      rfl
    rw [hzeros, setFill, ← hpre, if_pos hroom]
    dsimp only
    rw [hframe, ih (pre ++ setFrame n) (index + 1), append_assoc]
    · rfl
    · rw [length_append, hpre, show (setFrame n).length = setHeaderLen from rfl, Nat.mul_succ, Nat.add_assoc]

/-- The message that `updata` and `updata_len` delimit. -/
def Updata.message (u : Updata) : Bytes := u.data.take u.len

variable {op : NodeOperation} {ns : List Node}

theorem elementNum_nodes (hn : op.nodes.length ≤ 255) :
    op.elementNum.toNat = op.nodes.length ∧ op.elementNum.toUInt8 = UInt8.ofNat op.nodes.length := by
  have hnum : op.elementNum.toNat = op.nodes.length := by
    rw [op.counted, UInt16.toNat_ofNat']
    omega
  refine ⟨hnum, UInt8.toNat_inj.mp ?_⟩
  rw [UInt16.toNat_toUInt8, hnum, UInt8.toNat_ofNat']

/-- **The response to a set request**, for each number of properties that a byte counts: the count and all the frames
are in the buffer, and the message that is announced lacks the last byte, the code of the last property. -/
theorem set_response_short (op : NodeOperation) (hn : op.nodes.length ≤ 255) :
    ∃ updata, hexSetPack op = some updata ∧ updata.data = UInt8.ofNat op.nodes.length :: setFrames op.nodes ∧
      updata.len = setHeaderLen * op.nodes.length ∧ updata.message = updata.data.dropLast := by
  obtain ⟨hnum, hcount⟩ := elementNum_nodes hn
  have hbuff : splice (replicate (setHeaderLen * op.nodes.length + 1) 0) 0 [op.elementNum.toUInt8] =
      [UInt8.ofNat op.nodes.length] ++ replicate (setHeaderLen * op.nodes.length) 0 := by
    rw [hcount, replicate_succ]
    rfl
  refine ⟨⟨UInt8.ofNat op.nodes.length :: setFrames op.nodes, setHeaderLen * op.nodes.length⟩, ?_, rfl, rfl, ?_⟩
  · rw [hexSetPack, hnum, hbuff, setFill_frames op.nodes _ 0 rfl]
    rfl
  · rw [Updata.message, dropLast_eq_take, length_cons, length_setFrames, Nat.add_sub_cancel]

def oneNode : NodeOperation := ⟨1, [⟨⟨2, 0x0304, .packUint16 500⟩, 0, 5⟩], rfl⟩

theorem set_response_short_one : ∃ updata, hexSetPack oneNode = some updata ∧ updata.data = [1, 2, 3, 4, 5] ∧
    updata.len = 4 ∧ updata.message = updata.data.dropLast :=
  set_response_short oneNode (by decide)

/-- The code of the one property is missing. -/
theorem set_response_not_complete :
    (hexSetPack oneNode).map Updata.message = some [1, 2, 3, 4] ∧
      ¬ ∀ op : NodeOperation, 1 ≤ op.nodes.length → op.nodes.length ≤ 255 → ∃ updata, hexSetPack op = some updata ∧
        updata.message = UInt8.ofNat op.nodes.length :: setFrames op.nodes := by
  refine ⟨by decide +kernel, fun hall => ?_⟩
  obtain ⟨updata, hpack, hmessage⟩ := hall oneNode (by decide) (by decide)
  have hshort : (hexSetPack oneNode).map (fun u => u.message.length) = some 4 := by decide +kernel
  rw [hpack, Option.map_some, hmessage] at hshort
  exact absurd hshort (by decide)

/-! ### The response to a get request -/

def responseFrame (n : Node) (value : Bytes) : Bytes :=
  n.property.siid :: (Width.two.put n.property.piid.toNat ++ n.code.toUInt8 :: (Width.two.put value.length ++ 0 :: value))

@[simp] theorem length_responseFrame (n : Node) (value : Bytes) :
    (responseFrame n value).length = getHeaderLen + value.length := by
  simp [responseFrame, getHeaderLen, Width.size]
  omega

/-- A round over zeros: the stores of a frame leave the frame, and zeros behind it. -/
theorem writeResponse_zeros (n : Node) (value pre : Bytes) (room : Nat) :
    writeResponse n value (pre ++ replicate (8 + room) 0) pre.length =
      pre ++ (responseFrame n value ++ (replicate (1 + room) 0).drop value.length) := by
  have hzeros : replicate (8 + room) (0 : UInt8) = 0 :: 0 :: 0 :: 0 :: 0 :: 0 :: 0 :: 0 :: replicate room 0 := by
    rw [Nat.add_comm]
    rfl
  have hone : replicate (1 + room) (0 : UInt8) = 0 :: replicate room 0 := by
    rw [Nat.add_comm]
    rfl
  have hdrop (a b c d e f g : UInt8) (tail : Bytes) :
      (a :: b :: c :: d :: e :: f :: g :: tail).drop (7 + value.length) = tail.drop value.length := by
    rw [Nat.add_comm]
    rfl
  rw [hzeros, hone, writeResponse]
  rw [show splice _ pre.length [_] = _ from splice_append pre _ 0 _]
  simp only [splice_append]
  simp [splice, responseFrame, Width.put, hdrop]

def responseFrames (ns : List Node) : Bytes := ns.flatMap fun n => responseFrame n n.property.payload

theorem responseFrames_cons (n : Node) (ns : List Node) :
    responseFrames (n :: ns) = responseFrame n n.property.payload ++ responseFrames ns := rfl

theorem getMallocLen_frames {num : Nat} (hn : ns.length ≤ num) (len : Nat) :
    getMallocLen num ns len = len + (responseFrames ns).length := by
  induction ns generalizing num len with
  | nil => cases num <;> rfl
  | cons n rest ih =>
    cases num with
    | zero => exact absurd hn (Nat.not_succ_le_zero _)
    | succ num =>
      rw [getMallocLen, ih (Nat.le_of_succ_le_succ hn), responseFrames_cons, length_append, length_responseFrame,
        n.property.payload_spec.2, Nat.add_assoc]

/-- The second loop writes the frames into the zeros, if there is one more than it needs. -/
theorem getFill_frames (ns : List Node) (pre : Bytes) {room : Nat}
    (hroom : (responseFrames ns).length < room) :
    getFill ns (pre ++ replicate room 0) pre.length =
      some (pre ++ (responseFrames ns ++ replicate (room - (responseFrames ns).length) 0)) := by
  induction ns generalizing pre room with
  | nil => rfl
  | cons n rest ih =>
    rw [responseFrames_cons, length_append, length_responseFrame, getHeaderLen] at hroom
    obtain ⟨more, rfl⟩ : ∃ more, room = 8 + more := ⟨room - 8, by omega⟩
    have hinside : pre.length + 8 ≤ (pre ++ replicate (8 + more) (0 : UInt8)).length ∧
        pre.length + (getHeaderLen + n.property.payload.length) ≤
          (pre ++ replicate (8 + more) (0 : UInt8)).length := by
      rw [length_append, length_replicate, getHeaderLen]
      omega
    have hplace : pre.length + (getHeaderLen + n.property.payload.length) =
        (pre ++ responseFrame n n.property.payload).length := by
      rw [length_append, length_responseFrame]
    have hleft : 8 + more - (getHeaderLen + n.property.payload.length + (responseFrames rest).length) =
        1 + more - n.property.payload.length - (responseFrames rest).length := by
      rw [getHeaderLen]
      omega
    simp only [getFill, n.property.payload_spec.1, if_pos hinside]
    rw [writeResponse_zeros, drop_replicate, hplace, ← append_assoc, ih _ (by omega), responseFrames_cons, length_append,
      length_responseFrame, hleft]
    simp only [append_assoc]

theorem message_frames (count : UInt8) (frames zeros : Bytes) :
    Updata.message ⟨count :: (frames ++ zeros), 1 + frames.length⟩ = count :: frames := by
  rw [Updata.message, Nat.add_comm 1]
  exact congrArg (count :: ·) take_left

/-- The response to a get request, as it is. -/
theorem hexGetPack_frames (hn : op.nodes.length ≤ 255) :
    ∃ updata, hexGetPack op = some updata ∧ updata.len = updata.message.length ∧
      updata.message = UInt8.ofNat op.nodes.length :: responseFrames op.nodes := by
  obtain ⟨hnum, hcount⟩ := elementNum_nodes hn
  have hlen : getMallocLen op.elementNum.toUInt8.toNat op.nodes 1 = 1 + (responseFrames op.nodes).length := by
    refine getMallocLen_frames ?_ 1
    rw [hcount, UInt8.toNat_ofNat']
    omega
  have hbuff : splice (replicate (1 + (responseFrames op.nodes).length + 1) 0) 0 [op.elementNum.toUInt8] =
      [UInt8.ofNat op.nodes.length] ++ replicate ((responseFrames op.nodes).length + 1) 0 := by
    rw [hcount, Nat.add_assoc, Nat.add_comm, replicate_succ]
    rfl
  have hfill := getFill_frames op.nodes [UInt8.ofNat op.nodes.length] (Nat.lt_succ_self (responseFrames op.nodes).length)
  have hone : (responseFrames op.nodes).length.succ - (responseFrames op.nodes).length = 1 := by omega
  rw [hone] at hfill
  refine ⟨⟨UInt8.ofNat op.nodes.length :: (responseFrames op.nodes ++ [0]), 1 + (responseFrames op.nodes).length⟩, ?_, ?_,
    message_frames _ _ _⟩
  · rw [hexGetPack, hlen, hbuff, show getFill _ _ 1 = _ from hfill]
    rfl
  · rw [message_frames, length_cons, Nat.add_comm]

/-! ### A request and its response -/

def getRequest (ws : List Wanted) : Bytes := UInt8.ofNat ws.length :: ws.flatMap Wanted.frame

/-- What is answered of a property; `pointer` is what the allocation for the value returns. -/
structure Answer where
  code : Int8
  format : UInt8
  value : Bytes
  pointer : Raw

/-- The answer in a property: its code and format are set, its value is packed. -/
def Node.answer (n : Node) (a : Answer) : Node where
  property :=
    { n.property with
      value := ({ n.property.value with format := a.format } : Value).packBytes a.pointer a.value }
  did := n.did
  code := a.code

def NodeOperation.answer (op : NodeOperation) (answers : UInt8 × UInt16 → Answer) : NodeOperation where
  elementNum := op.elementNum
  nodes := op.nodes.map fun n => n.answer (answers n.xiid)
  counted := by rw [op.counted, List.length_map]

theorem answer_nodes (op : NodeOperation) (answers : UInt8 × UInt16 → Answer) :
    (op.answer answers).nodes = op.nodes.map fun n => n.answer (answers n.xiid) := rfl

/-- A value that a frame carries as it is: its length fits, and if it has just the size of the buffer it is the bytes
of the pointer that are sent for it. -/
def Answer.Carried (a : Answer) : Prop :=
  a.value.length < 65536 ∧ (a.value.length = buffSize → a.pointer.val = a.value)

instance (a : Answer) : Decidable a.Carried := inferInstanceAs (Decidable (_ ∧ _))

theorem answer_len (w : Wanted) (a : Answer) :
    (w.node.answer a).property.value.len = UInt16.ofNat a.value.length := by
  simp only [Node.answer, Value.packBytes]
  split
  · next hempty =>
    rw [hempty]
    rfl
  · split <;> rfl

theorem answer_payload (w : Wanted) (a : Answer) :
    (w.node.answer a).property.payload.length ≤ a.value.length ∧
      ((w.node.answer a).property.payload = a.value ↔ a.Carried) := by
  obtain ⟨hread, hlen⟩ := (w.node.answer a).property.payload_spec
  rw [answer_len, UInt16.toNat_ofNat'] at hlen
  have height (h : a.value.length = buffSize) : (w.node.answer a).property.payload = a.pointer.val := by
    have hbytes : (w.node.answer a).property.value.unpackBytes = some a.pointer.val := by
      rw [Value.unpackBytes, answer_len, h, if_pos (by decide)]
      simp only [Node.answer, Value.packBytes, h]
      exact congrArg some (take_of_length_le (Nat.le_of_eq a.pointer.property))
    exact Option.some.inj (hread.symm.trans hbytes)
  refine ⟨hlen ▸ Nat.mod_le _ _, fun h => ⟨?_, fun hsize => (height hsize).symm.trans h⟩, ?_⟩
  · rw [h] at hlen
    omega
  · rintro ⟨hfits, hpointer⟩
    by_cases hsize : a.value.length = buffSize
    · exact (height hsize).trans (hpointer hsize)
    by_cases hempty : a.value.length = 0
    · rw [hempty] at hlen
      rw [length_eq_zero_iff.mp hempty, length_eq_zero_iff.mp hlen]
    · obtain ⟨hdirect, -, -⟩ :=
        packBytes_spec { w.node.property.value with format := a.format } a.pointer hempty hfits
      have hplace : (w.node.answer a).property.value.len.toNat ≠ buffSize := by
        rw [answer_len, UInt16.toNat_ofNat', Nat.mod_eq_of_lt hfits]
        exact hsize
      exact Option.some.inj (hread.symm.trans ((unpackBytes_eq_direct _ hplace).trans hdirect))

/-- The response has the bytes of the identifier in the other order. -/
theorem put_xiid (w : Wanted) : Width.two.put w.xiid.2.toNat = [w.second, w.first] := by
  have hnat : w.xiid.2.toNat = w.second.toNat * 256 + w.first.toNat := by
    have hfirst := w.first.toNat_lt
    have hsecond := w.second.toNat_lt
    rw [Wanted.xiid, UInt16.toNat_ofNat']
    omega
  have hget : Width.two.get [w.second, w.first] = some (w.xiid.2.toNat, []) := by rw [hnat]; rfl
  exact (Width.put_of_get hget).symm

def Wanted.mirror (w : Wanted) (a : Answer) : Bytes :=
  w.frame ++ a.code.toUInt8 :: (Width.two.put a.value.length ++ a.format :: a.value)

def mirrored (ws : List Wanted) (answers : UInt8 × UInt16 → Answer) : Bytes :=
  UInt8.ofNat ws.length :: ws.flatMap fun w => w.mirror (answers w.xiid)

theorem responseFrame_eq_mirror (w : Wanted) (a : Answer) :
    responseFrame (w.node.answer a) (w.node.answer a).property.payload = w.mirror a ↔
      w.first = w.second ∧ a.format = 0 ∧ a.Carried := by
  have hframe : responseFrame (w.node.answer a) (w.node.answer a).property.payload =
      w.siid :: (Width.two.put w.xiid.2.toNat ++ a.code.toUInt8 ::
        (Width.two.put (w.node.answer a).property.payload.length ++ 0 :: (w.node.answer a).property.payload)) := rfl
  rw [hframe, put_xiid, Wanted.mirror, Wanted.frame, ← (answer_payload w a).2]
  constructor
  · intro h
    simp only [cons_append, nil_append, cons.injEq, true_and] at h
    obtain ⟨-, hbytes, hrest⟩ := h
    obtain ⟨-, htail⟩ := append_inj hrest rfl
    obtain ⟨hformat, hvalue⟩ := cons.inj htail
    exact ⟨hbytes, hformat.symm, hvalue⟩
  · rintro ⟨hbytes, hformat, hvalue⟩
    rw [hbytes, hformat, hvalue]
    rfl

theorem flatMap_length_le {α β : Type} {f g : α → List β} {l : List α} (h : ∀ x ∈ l, (f x).length ≤ (g x).length) :
    (l.flatMap f).length ≤ (l.flatMap g).length := by
  rw [length_flatMap, length_flatMap]
  exact sum_le_sum h

theorem flatMap_inj {α β : Type} {f g : α → List β} {l : List α} (h : ∀ x ∈ l, (f x).length ≤ (g x).length) :
    l.flatMap f = l.flatMap g ↔ ∀ x ∈ l, f x = g x := by
  refine ⟨fun heq => ?_, fun heq => flatMap_congr heq⟩
  induction l with
  | nil => exact nofun
  | cons x rest ih =>
    rw [forall_mem_cons] at h ⊢
    have htotal := congrArg length heq
    have hrest := flatMap_length_le h.2
    rw [flatMap_cons, flatMap_cons] at heq htotal
    rw [length_append, length_append] at htotal
    obtain ⟨hx, htail⟩ := append_inj heq (by have := h.1; omega)
    exact ⟨hx, ih h.2 htail⟩

theorem length_responseFrame_le (w : Wanted) (a : Answer) :
    (responseFrame (w.node.answer a) (w.node.answer a).property.payload).length ≤ (w.mirror a).length := by
  have hle := (answer_payload w a).1
  rw [length_responseFrame, getHeaderLen, Wanted.mirror, Wanted.frame]
  simp only [length_append, length_cons, length_nil, Width.length_put, Width.size]
  omega

/-! ### Request and response -/

/-- What a request is read as. -/
def requested (ws : List Wanted) : Unpacked := puts ⟨.create, []⟩ (ws.map Wanted.node)

variable {ws : List Wanted}

theorem hexGetUnpack_request (hcount : ws.length ≤ 255) :
    hexGetUnpack (fun _ => false) (getRequest ws) = .done (requested ws) := by
  obtain ⟨num, hloop, hall⟩ := getLoop_frames (fun _ => false) ws [UInt8.ofNat ws.length] [] (by rw [append_nil])
    ⟨.create, []⟩
  rw [hall fun _ => rfl, take_length] at hloop
  rw [getRequest, hexGetUnpack, UInt8.toNat_ofNat', Nat.mod_eq_of_lt (by omega)]
  exact hloop

theorem requested_count (ws : List Wanted) :
    (requested ws).op.nodes.length + (requested ws).dropped.length = ws.length := by
  rw [requested, puts_count, length_map]
  exact Nat.zero_add _

theorem requested_dropped : (requested ws).dropped = [] ↔ ws.Nodup := by
  rw [requested, puts_dropped_iff rfl, map_map]
  exact (and_iff_left fun _ _ => not_mem_nil).trans (nodup_map_iff Wanted.xiid_injective)

theorem requested_nodes (h : ws.Nodup) : (requested ws).op.nodes = ws.map Wanted.node := by
  obtain ⟨hxiids, hfresh⟩ := (puts_dropped_iff rfl).mp (requested_dropped.mpr h)
  exact (puts_fresh hxiids hfresh).1

/-- **A get response mirrors its request** of at most 255 properties exactly if each property is asked once, its
identifier has two equal bytes, and each answer has the format zero and a value that is carried as it is. -/
theorem get_response_mirrors (ws : List Wanted) (answers : UInt8 × UInt16 → Answer) (hcount : ws.length ≤ 255) :
    (∃ u updata, hexGetUnpack (fun _ => false) (getRequest ws) = .done u ∧
      hexGetPack (u.op.answer answers) = some updata ∧ updata.message = mirrored ws answers ∧
      updata.len = (mirrored ws answers).length) ↔
    ws.Nodup ∧ ∀ w ∈ ws, w.first = w.second ∧ (answers w.xiid).format = 0 ∧ (answers w.xiid).Carried := by
  have hcounts := requested_count ws
  have hnodes : ((requested ws).op.answer answers).nodes.length = (requested ws).op.nodes.length := length_map ..
  obtain ⟨updata, hpack, hlen, hmessage⟩ := hexGetPack_frames
    (show ((requested ws).op.answer answers).nodes.length ≤ 255 by omega)
  have hunpack := hexGetUnpack_request hcount
  refine Iff.trans (b := updata.message = mirrored ws answers) ⟨?_, ?_⟩ ?_
  · rintro ⟨u, _, hu, hp, hm, -⟩
    cases hu.symm.trans hunpack
    cases hp.symm.trans hpack
    exact hm
  · exact fun hm => ⟨_, updata, hunpack, hpack, hm, hm ▸ hlen⟩
  rw [hmessage, hnodes]
  by_cases hids : ws.Nodup
  · have hanswered : ((requested ws).op.answer answers).nodes = ws.map fun w => w.node.answer (answers w.xiid) := by
      rw [answer_nodes, requested_nodes hids, map_map]
      rfl
    rw [hanswered, requested_nodes hids, length_map, responseFrames, flatMap_map, mirrored, cons.injEq,
      and_iff_right rfl, flatMap_inj fun w _ => length_responseFrame_le w (answers w.xiid), and_iff_right hids]
    exact forall₂_congr fun w _ => responseFrame_eq_mirror w (answers w.xiid)
  · refine iff_of_false (fun h => ?_) fun h => hids h.1
    -- a property that is asked again is dropped, and the count is smaller
    have hpos := length_pos_iff.mpr (mt requested_dropped.mp hids)
    have hsame := congrArg UInt8.toNat (cons.inj h).1
    rw [UInt8.toNat_ofNat', UInt8.toNat_ofNat'] at hsame
    omega

/-- A string of three bytes, of which one property is asked. -/
theorem get_response_mirrors_one :
    ∃ u updata, hexGetUnpack (fun _ => false) (getRequest [⟨1, 2, 2⟩]) = .done u ∧
      hexGetPack (u.op.answer fun _ => ⟨-1, 0, [7, 8, 9], address⟩) = some updata ∧
      updata.message = [1, 1, 2, 2, 255, 0, 3, 0, 7, 8, 9] ∧ updata.len = 11 :=
  (get_response_mirrors [⟨1, 2, 2⟩] (fun _ => ⟨-1, 0, [7, 8, 9], address⟩) (by decide)).mpr (by decide)

def getResponse (ws : List Wanted) (answers : UInt8 × UInt16 → Answer) : Option Bytes :=
  match hexGetUnpack (fun _ => false) (getRequest ws) with
  | .done u => (hexGetPack (u.op.answer answers)).map Updata.message
  | _ => none

/-- A number of two bytes, format 4, in the property 0x0001: the response names the property 0x0100 and the format 0. -/
theorem get_response_not_mirrored :
    getResponse [⟨1, 0, 1⟩] (fun _ => ⟨0, 4, [1, 244], address⟩) = some [1, 1, 1, 0, 0, 0, 2, 0, 1, 244] ∧
      mirrored [⟨1, 0, 1⟩] (fun _ => ⟨0, 4, [1, 244], address⟩) = [1, 1, 0, 1, 0, 0, 2, 4, 1, 244] ∧
      ¬ ∀ (ws : List Wanted) (answers : UInt8 × UInt16 → Answer), ws.length ≤ 255 →
        getResponse ws answers = some (mirrored ws answers) := by
  have hresponse : getResponse [⟨1, 0, 1⟩] (fun _ => ⟨0, 4, [1, 244], address⟩) =
      some [1, 1, 1, 0, 0, 0, 2, 0, 1, 244] := by decide +kernel
  refine ⟨hresponse, by decide +kernel, fun hall => ?_⟩
  have hmirrored := hresponse.symm.trans (hall [⟨1, 0, 1⟩] (fun _ => ⟨0, 4, [1, 244], address⟩) (by decide))
  revert hmirrored
  decide +kernel

end Qumios.Spec
