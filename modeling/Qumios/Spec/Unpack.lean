import Qumios.Spec.Node

/-! Unpacking get and set messages: what is read, and what becomes of the properties that are created.

Both loops put the property of each frame into the operation (`puts`), and a property whose id is there already is
dropped (`puts_dropped_iff`). The get loop trusts the count and the set loop the length of each value, so the messages
that are read inside and leave nothing behind are those made of whole frames with ids of their own
(`unpack_contained_iff`). -/
namespace Qumios.Spec
open Wire Buffer List

/-! ### Putting properties into an operation -/

def NodeOperation.ids (op : NodeOperation) : List (UInt8 × UInt16) := op.nodes.map Node.xiid

variable {n : Node} {u : Unpacked} {ns : List Node} {data : Bytes}

theorem check_iff {op : NodeOperation} : op.operation.check n.property = true ↔ n.xiid ∈ op.ids := by
  rw [← not_iff_not, Bool.not_eq_true, check_eq_false]
  simp [NodeOperation.operation, NodeOperation.ids, Node.xiid]

theorem put_fresh (h : n.xiid ∉ u.op.ids) : u.put n = { u with op := u.op.append n } := by
  rw [Unpacked.put, NodeOperation.add, if_neg (check_iff.not.mpr h)]

theorem put_known (h : n.xiid ∈ u.op.ids) : u.put n = { u with dropped := u.dropped ++ [n] } := by
  rw [Unpacked.put, NodeOperation.add, if_pos (check_iff.mpr h)]

variable (op : NodeOperation) (num : UInt8) (body : Bytes)

theorem append_ids (n : Node) : (op.append n).ids = op.ids ++ [n.xiid] := by
  rw [NodeOperation.ids, NodeOperation.append, map_append]
  rfl

def puts (u : Unpacked) (ns : List Node) : Unpacked := ns.foldl Unpacked.put u

theorem puts_dropped_prefix (u : Unpacked) (ns : List Node) : u.dropped <+: (puts u ns).dropped := by
  induction ns generalizing u with
  | nil => exact prefix_rfl
  | cons n rest ih =>
    refine List.IsPrefix.trans ?_ (ih (u.put n))
    by_cases hknown : n.xiid ∈ u.op.ids
    · rw [put_known hknown]
      exact prefix_append _ _
    · rw [put_fresh hknown]

/-- Properties with new ids, each its own, all come into the operation. -/
theorem puts_fresh (hnodup : (ns.map Node.xiid).Nodup) (hfresh : ∀ n ∈ ns, n.xiid ∉ u.op.ids) :
    (puts u ns).op.nodes = u.op.nodes ++ ns ∧ (puts u ns).dropped = u.dropped := by
  induction ns generalizing u with
  | nil => exact ⟨(append_nil _).symm, rfl⟩
  | cons n rest ih =>
    rw [map_cons, nodup_cons] at hnodup
    have hn := hfresh n (mem_cons_self ..)
    have hrest : ∀ m ∈ rest, m.xiid ∉ (u.put n).op.ids := by
      intro m hm
      rw [put_fresh hn, append_ids, mem_append, mem_singleton, not_or]
      exact ⟨hfresh m (mem_cons_of_mem _ hm), fun hsame => hnodup.1 (hsame ▸ mem_map_of_mem hm)⟩
    obtain ⟨hnodes, hdropped⟩ := ih hnodup.2 hrest
    have hput := put_fresh hn
    refine ⟨hnodes.trans ?_, hdropped.trans ?_⟩
    · rw [hput]
      exact append_assoc ..
    · rw [hput]

/-- Each property comes into the operation or is dropped. -/
theorem puts_count (u : Unpacked) (ns : List Node) :
    (puts u ns).op.nodes.length + (puts u ns).dropped.length = u.op.nodes.length + u.dropped.length + ns.length := by
  induction ns generalizing u with
  | nil => rfl
  | cons n rest ih =>
    have hput : (u.put n).op.nodes.length + (u.put n).dropped.length = u.op.nodes.length + u.dropped.length + 1 := by
      by_cases hknown : n.xiid ∈ u.op.ids
      · rw [put_known hknown, length_append, length_singleton, Nat.add_assoc]
      · rw [put_fresh hknown, NodeOperation.append, length_append, length_singleton, Nat.add_right_comm]
    calc (puts u (n :: rest)).op.nodes.length + (puts u (n :: rest)).dropped.length
        = (u.put n).op.nodes.length + (u.put n).dropped.length + rest.length := ih (u.put n)
      _ = u.op.nodes.length + u.dropped.length + (n :: rest).length := by rw [hput, length_cons]; omega

/-- Nothing is dropped exactly if the ids are new and each its own. -/
theorem puts_dropped_iff (hu : u.dropped = []) :
    (puts u ns).dropped = [] ↔ (ns.map Node.xiid).Nodup ∧ ∀ n ∈ ns, n.xiid ∉ u.op.ids := by
  constructor
  · intro hnone
    induction ns generalizing u with
    | nil => exact ⟨nodup_nil, nofun⟩
    | cons n rest ih =>
      have hn : n.xiid ∉ u.op.ids := by
        intro hknown
        have hprefix := puts_dropped_prefix (u.put n) rest
        rw [show (puts (u.put n) rest).dropped = [] from hnone, put_known hknown] at hprefix
        exact absurd (prefix_nil.mp hprefix) (append_ne_nil_of_right_ne_nil _ (cons_ne_nil _ _))
      have hput := put_fresh hn
      obtain ⟨hnodup, hfresh⟩ := ih (u := u.put n) (by rw [hput]; exact hu) hnone
      simp only [hput, append_ids, mem_append, mem_singleton, not_or] at hfresh
      refine ⟨?_, forall_mem_cons.mpr ⟨hn, fun m hm => (hfresh m hm).1⟩⟩
      rw [map_cons, nodup_cons]
      refine ⟨fun hmem => ?_, hnodup⟩
      obtain ⟨m, hm, hsame⟩ := mem_map.mp hmem
      exact (hfresh m hm).2 hsame
  · rintro ⟨hnodup, hfresh⟩
    exact (puts_fresh hnodup hfresh).2.trans hu

/-! ### Get messages -/

/-- A property in a get request: the bytes of its frame. -/
structure Wanted where
  siid : UInt8
  first : UInt8
  second : UInt8
  deriving DecidableEq, Repr

namespace Wanted

def xiid (w : Wanted) : UInt8 × UInt16 := (w.siid, UInt16.ofNat (w.first.toNat + 256 * w.second.toNat))

def frame (w : Wanted) : Bytes := [w.siid, w.first, w.second]

def node (w : Wanted) : Node :=
  { Node.create with property := { Property.create with siid := w.siid, piid := w.xiid.2 } }

theorem xiid_injective : Function.Injective xiid := by
  rintro ⟨siid, first, second⟩ ⟨siid', first', second'⟩ h
  obtain ⟨hsiid, hpiid⟩ := Prod.mk.inj h
  have hnat := congrArg UInt16.toNat hpiid
  rw [UInt16.toNat_ofNat', UInt16.toNat_ofNat'] at hnat
  dsimp only at hnat
  have h₁ := first.toNat_lt
  have h₂ := second.toNat_lt
  have h₃ := first'.toNat_lt
  have h₄ := second'.toNat_lt
  have hfirst : first = first' := UInt8.toNat_inj.mp (by omega)
  have hsecond : second = second' := UInt8.toNat_inj.mp (by omega)
  rw [show siid = siid' from hsiid, hfirst, hsecond]

end Wanted

theorem getLoop_frame {pre rest : Bytes} {w : Wanted} (hdata : data = pre ++ (w.frame ++ rest)) {fails : Nat → Bool}
    (hfails : fails pre.length = false) (num : Nat) (u : Unpacked) :
    getLoop fails data (num + 1) pre.length u = getLoop fails data num (pre ++ w.frame).length (u.put w.node) := by
  rw [getLoop, hfails, if_neg Bool.false_ne_true, hdata, drop_left, length_append]
  rfl

/-- On whole frames the get loop puts the properties, up to the first allocation that fails. -/
theorem getLoop_frames (fails : Nat → Bool) (ws : List Wanted) (pre tail : Bytes)
    (hdata : data = pre ++ (ws.flatMap Wanted.frame ++ tail)) (u : Unpacked) :
    ∃ num, getLoop fails data ws.length pre.length u = .done (puts u ((ws.take num).map Wanted.node)) ∧
      ((∀ index, fails index = false) → num = ws.length) := by
  induction ws generalizing pre u with
  | nil => exact ⟨0, rfl, fun _ => rfl⟩
  | cons w rest ih =>
    cases hfails : fails pre.length with
    | true =>
      refine ⟨0, ?_, fun hnever => ?_⟩
      · rw [length_cons, getLoop, hfails, if_pos rfl]
        rfl
      · rw [hnever] at hfails
        cases hfails
    | false =>
      rw [flatMap_cons, append_assoc] at hdata
      rw [length_cons, getLoop_frame hdata hfails]
      rw [← append_assoc] at hdata
      obtain ⟨num, hloop, hall⟩ := ih _ hdata (u.put w.node)
      exact ⟨num + 1, hloop, fun hnever => congrArg (· + 1) (hall hnever)⟩

theorem getLoop_ends (fails : Nat → Bool) (data : Bytes) (num index : Nat) (u : Unpacked) :
    getLoop fails data num index u ≠ .running := by
  induction num generalizing index u with
  | zero => exact nofun
  | succ num ih =>
    rw [getLoop]
    split
    · exact nofun
    · split
      · exact ih _ _
      · exact nofun

/-- And if it comes to its end with all allocations made, it has read whole frames. -/
theorem getLoop_done {num index : Nat} {u' : Unpacked} (h : getLoop (fun _ => false) data num index u = .done u') :
    ∃ (ws : List Wanted) (tail : Bytes), data.drop index = ws.flatMap Wanted.frame ++ tail ∧ ws.length = num ∧
      u' = puts u (ws.map Wanted.node) := by
  induction num generalizing index u with
  | zero =>
    exact ⟨[], data.drop index, rfl, rfl, (Outcome.done.inj h).symm⟩
  | succ num ih =>
    rw [getLoop, if_neg Bool.false_ne_true] at h
    split at h
    case h_1 siid low high rest hdrop =>
      obtain ⟨ws, tail, hrest, hlength, hputs⟩ := ih h
      refine ⟨⟨siid, low, high⟩ :: ws, tail, ?_, congrArg (· + 1) hlength, hputs⟩
      rw [← drop_drop, hdrop] at hrest
      rw [hdrop, flatMap_cons, append_assoc, ← hrest]
      rfl
    case h_2 => cases h

/-! ### Set messages -/

/-- A frame of a set message. A value has as many bytes as its length can say, and at least one. -/
structure SetFrame where
  siid : UInt8
  piid₁ : UInt8
  piid₂ : UInt8
  format : UInt8
  value : Bytes
  nonempty : 0 < value.length
  fits : value.length < 65536

namespace SetFrame

def xiid (f : SetFrame) : UInt8 × UInt16 := (f.siid, UInt16.ofNat (f.piid₁.toNat * 256 + f.piid₂.toNat))

def bytes (f : SetFrame) : Bytes :=
  f.siid :: f.piid₁ :: f.piid₂ :: UInt8.ofNat (f.value.length / 256) :: UInt8.ofNat f.value.length :: f.format :: f.value

def node (f : SetFrame) (pointer : Option Raw) : Node :=
  { Node.create with
    property := { siid := f.siid, piid := f.xiid.2, value := packNew f.format pointer f.value } }

theorem length_bytes (f : SetFrame) : f.bytes.length = headerLen + f.value.length := by
  simp only [bytes, length_cons, headerLen]
  omega

end SetFrame

section

variable {fails : Nat → Bool} (pointer : Nat → Option Raw) {data : Bytes}

/-- A round on a whole frame. -/
theorem setLoopDropping_frame {pre rest : Bytes} {f : SetFrame} (hdata : data = pre ++ (f.bytes ++ rest))
    (hfails : fails pre.length = false) (rounds : Nat) (u : Unpacked) :
    setLoopDropping fails pointer data (rounds + 1) pre.length u =
      setLoopDropping fails pointer data rounds (pre ++ f.bytes).length (u.put (f.node (pointer pre.length))) := by
  have hinside : pre.length < data.length := by
    rw [hdata, length_append, length_append, f.length_bytes, headerLen]
    omega
  have hlen : (UInt8.ofNat (f.value.length / 256)).toNat * 256 + (UInt8.ofNat f.value.length).toNat = f.value.length := by
    have hfits := f.fits
    rw [UInt8.toNat_ofNat', UInt8.toNat_ofNat']
    omega
  have hne : f.value.length ≠ 0 := Nat.ne_of_gt f.nonempty
  have hroom : f.value.length ≤ (f.value ++ rest).length := by
    rw [length_append]
    omega
  rw [setLoopDropping, if_pos hinside, hfails, if_neg Bool.false_ne_true, hdata, drop_left]
  simp only [SetFrame.bytes, cons_append, hlen, if_neg hne, if_pos hroom, take_left]
  rw [← SetFrame.bytes, length_append, f.length_bytes]
  rfl

variable {rounds index : Nat}

/-- On whole frames the set loop puts the properties, up to the first allocation that fails. -/
theorem setLoopDropping_frames (fs : List SetFrame) (pre : Bytes) (hdata : data = pre ++ fs.flatMap SetFrame.bytes)
    (hrounds : fs.length < rounds) (u : Unpacked) :
    ∃ ns num, setLoopDropping fails pointer data rounds pre.length u = .done (puts u ns) ∧
      ns.map Node.xiid = (fs.take num).map SetFrame.xiid := by
  induction fs generalizing pre rounds u with
  | nil =>
    obtain ⟨rounds, rfl⟩ := Nat.exists_eq_succ_of_ne_zero (Nat.ne_of_gt hrounds)
    have hend : ¬ pre.length < data.length := by
      rw [hdata, flatMap_nil, append_nil]
      exact Nat.lt_irrefl _
    exact ⟨[], 0, by rw [setLoopDropping, if_neg hend]; rfl, rfl⟩
  | cons f rest ih =>
    obtain ⟨rounds, rfl⟩ := Nat.exists_eq_succ_of_ne_zero (Nat.ne_of_gt (Nat.zero_lt_of_lt hrounds))
    rw [flatMap_cons] at hdata
    cases hfails : fails pre.length with
    | true =>
      have hinside : pre.length < data.length := by
        rw [hdata, length_append, length_append, f.length_bytes, headerLen]
        omega
      exact ⟨[], 0, by rw [setLoopDropping, if_pos hinside, hfails, if_pos rfl]; rfl, rfl⟩
    | false =>
      rw [setLoopDropping_frame pointer hdata hfails]
      rw [← append_assoc] at hdata
      obtain ⟨ns, num, hloop, hids⟩ := ih _ hdata (Nat.lt_of_succ_lt_succ hrounds) (u.put (f.node (pointer pre.length)))
      refine ⟨f.node (pointer pre.length) :: ns, num + 1, hloop, ?_⟩
      rw [map_cons, hids, take_succ_cons, map_cons]
      rfl

/-- What a round can do. -/
theorem setLoopDropping_cases (fails : Nat → Bool) (pointer : Nat → Option Raw) (data : Bytes) (rounds index : Nat)
    (u : Unpacked) :
    (data.length ≤ index ∧ setLoopDropping fails pointer data (rounds + 1) index u = .done u) ∨
      (fails index = true ∧ setLoopDropping fails pointer data (rounds + 1) index u = .done u) ∨
      setLoopDropping fails pointer data (rounds + 1) index u = .overread ∨
      setLoopDropping fails pointer data (rounds + 1) index u = .done { u with dropped := u.dropped ++ [.create] } ∨
      ∃ (f : SetFrame) (rest : Bytes), data.drop index = f.bytes ++ rest ∧ index < data.length ∧
        setLoopDropping fails pointer data (rounds + 1) index u =
          setLoopDropping fails pointer data rounds (index + f.bytes.length) (u.put (f.node (pointer index))) := by
  by_cases hinside : index < data.length
  case neg => exact .inl ⟨Nat.not_lt.mp hinside, by rw [setLoopDropping, if_neg hinside]⟩
  cases hfails : fails index with
  | true => exact .inr (.inl ⟨rfl, by rw [setLoopDropping, if_pos hinside, hfails, if_pos rfl]⟩)
  | false =>
    refine .inr (.inr ?_)
    by_cases hframe : ∃ (f : SetFrame) (rest : Bytes), data.drop index = f.bytes ++ rest
    · obtain ⟨f, rest, hdrop⟩ := hframe
      have hdata : data = data.take index ++ (f.bytes ++ rest) := by rw [← hdrop, take_append_drop]
      have hlength : (data.take index).length = index := length_take_of_le (Nat.le_of_lt hinside)
      have hround := setLoopDropping_frame pointer hdata (hlength ▸ hfails) rounds u
      rw [length_append, hlength] at hround
      exact .inr (.inr ⟨f, rest, hdrop, hinside, hround⟩)
    · rw [setLoopDropping, if_pos hinside, hfails, if_neg Bool.false_ne_true]
      split
      case h_2 => exact .inl rfl
      case h_1 siid piid₁ piid₂ len₁ len₂ rest hdrop =>
        dsimp only
        split
        · exact .inr (.inl rfl)
        case isFalse hne =>
          split
          case h_2 => exact .inl rfl
          case h_1 format rest =>
            split
            case isFalse => exact .inl rfl
            case isTrue hroom =>
              -- a whole frame, after all
              refine absurd ⟨⟨siid, piid₁, piid₂, format, rest.take (len₁.toNat * 256 + len₂.toNat), ?_, ?_⟩,
                rest.drop (len₁.toNat * 256 + len₂.toNat), ?_⟩ hframe
              all_goals have h₁ := len₁.toNat_lt
              all_goals have h₂ := len₂.toNat_lt
              all_goals have htake := length_take_of_le hroom
              · omega
              · omega
              · have hhigh : (len₁.toNat * 256 + len₂.toNat) / 256 = len₁.toNat := by omega
                have hlow : UInt8.ofNat (len₁.toNat * 256 + len₂.toNat) = len₂ := by
                  apply UInt8.toNat_inj.mp
                  rw [UInt8.toNat_ofNat']
                  omega
                simp only [SetFrame.bytes, htake, hhigh, hlow, UInt8.ofNat_toNat, cons_append,
                  take_append_drop]
                exact hdrop

/-- The index grows, so the loop ends. -/
theorem setLoopDropping_ends (hpos : 0 < rounds) (hrounds : data.length < index + rounds) (u : Unpacked) :
    setLoopDropping fails pointer data rounds index u ≠ .running := by
  induction rounds generalizing index u with
  | zero => exact absurd hpos (Nat.lt_irrefl 0)
  | succ rounds ih =>
    obtain ⟨-, h⟩ | ⟨-, h⟩ | h | h | ⟨f, rest, -, hinside, h⟩ := setLoopDropping_cases fails pointer data rounds index u
    · exact h ▸ nofun
    · exact h ▸ nofun
    · exact h ▸ nofun
    · exact h ▸ nofun
    · rw [h]
      refine ih (by omega) ?_ _
      rw [f.length_bytes, headerLen]
      omega

/-- And if it comes to its end with all allocations made and nothing dropped, it has read whole frames. -/
theorem setLoopDropping_done {u u' : Unpacked}
    (h : setLoopDropping (fun _ => false) pointer data rounds index u = .done u') (hnone : u'.dropped = []) :
    ∃ (fs : List SetFrame) (ns : List Node), data.drop index = fs.flatMap SetFrame.bytes ∧
      ns.map Node.xiid = fs.map SetFrame.xiid ∧ u' = puts u ns := by
  induction rounds generalizing index u with
  | zero => cases h
  | succ rounds ih =>
    obtain ⟨hend, hround⟩ | ⟨hfails, -⟩ | hround | hround | ⟨f, rest, hdrop, -, hround⟩ :=
      setLoopDropping_cases (fun _ => false) pointer data rounds index u
    · exact ⟨[], [], drop_eq_nil_of_le hend, rfl, (Outcome.done.inj (hround.symm.trans h)).symm⟩
    · cases hfails
    · cases hround.symm.trans h
    · obtain rfl := Outcome.done.inj (hround.symm.trans h)
      exact absurd hnone (append_ne_nil_of_right_ne_nil _ (cons_ne_nil _ _))
    · obtain ⟨fs, ns, hrest, hids, hputs⟩ := ih (hround.symm.trans h)
      refine ⟨f :: fs, f.node (pointer index) :: ns, ?_, congrArg (f.xiid :: ·) hids, hputs⟩
      rw [← drop_drop, hdrop, drop_left] at hrest
      rw [hdrop, hrest, flatMap_cons]

end

/-! ### Containment -/

inductive MsgType where
  | get | set
  deriving DecidableEq, Repr

/-- `qm_spec_data_unpack` of a message in hex, which begins with a count. A set message goes into the operation that is
there, a get message into a new one. -/
def dataUnpack (type : MsgType) (fails : Nat → Bool) (pointer : Nat → Option Raw) (op : NodeOperation) (num : UInt8)
    (body : Bytes) : Outcome :=
  match type with
  | .get => hexGetUnpack fails (num :: body)
  | .set => hexSetUnpackDropping fails pointer op (num :: body)

def Contained (r : Outcome) : Prop := ∃ u, r = .done u ∧ u.dropped = []

/-- The message is made of whole frames, with ids of their own: as many as a get message counts, or as many as a set
message has room for. -/
def Framed (type : MsgType) (op : NodeOperation) (num : UInt8) (body : Bytes) : Prop :=
  match type with
  | .get => ∃ (ws : List Wanted) (tail : Bytes), body = ws.flatMap Wanted.frame ++ tail ∧ ws.length = num.toNat ∧ ws.Nodup
  | .set => ∃ fs : List SetFrame, body = fs.flatMap SetFrame.bytes ∧ (fs.map SetFrame.xiid).Nodup ∧
      ∀ f ∈ fs, f.xiid ∉ op.ids

theorem get_contained_iff : (∀ fails, Contained (hexGetUnpack fails (num :: body))) ↔ Framed .get op num body := by
  constructor
  · intro h
    obtain ⟨u, hdone, hnone⟩ := h fun _ => false
    obtain ⟨ws, tail, hdrop, hlength, rfl⟩ := getLoop_done (show getLoop _ (num :: body) num.toNat 1 _ = _ from hdone)
    have hids := ((puts_dropped_iff rfl).mp hnone).1
    rw [map_map] at hids
    exact ⟨ws, tail, hdrop, hlength, hids.of_map _⟩
  · rintro ⟨ws, tail, rfl, hlength, hnodup⟩ fails
    obtain ⟨count, hloop, -⟩ := getLoop_frames fails ws [num] tail rfl ⟨.create, []⟩
    refine ⟨_, (show hexGetUnpack fails _ = getLoop fails _ num.toNat 1 _ from rfl).trans (hlength ▸ hloop), ?_⟩
    refine (puts_dropped_iff rfl).mpr ⟨?_, fun n _ => not_mem_nil⟩
    rw [map_map]
    exact (hnodup.sublist (take_sublist _ _)).map Wanted.xiid_injective

theorem length_le_setFrames (fs : List SetFrame) : fs.length ≤ (fs.flatMap SetFrame.bytes).length := by
  induction fs with
  | nil => exact Nat.le_refl _
  | cons f rest ih =>
    rw [flatMap_cons, length_append, f.length_bytes, length_cons, headerLen]
    omega

theorem set_contained_iff :
    (∀ fails pointer, Contained (hexSetUnpackDropping fails pointer op (num :: body))) ↔ Framed .set op num body := by
  constructor
  · intro h
    obtain ⟨u, hdone, hnone⟩ := h (fun _ => false) fun _ => none
    obtain ⟨fs, ns, hdrop, hids, rfl⟩ := setLoopDropping_done _ hdone hnone
    obtain ⟨hnodup, hfresh⟩ := (puts_dropped_iff rfl).mp hnone
    refine ⟨fs, hdrop, hids ▸ hnodup, fun f hf => ?_⟩
    have hmem : f.xiid ∈ ns.map Node.xiid := hids ▸ mem_map_of_mem hf
    obtain ⟨n, hn, hsame⟩ := mem_map.mp hmem
    exact hsame ▸ hfresh n hn
  · rintro ⟨fs, rfl, hnodup, hfresh⟩ fails pointer
    have hrounds : fs.length < (num :: fs.flatMap SetFrame.bytes).length + 1 :=
      Nat.lt_succ_of_le (Nat.le_succ_of_le (length_le_setFrames fs))
    obtain ⟨ns, count, hloop, hids⟩ :
        ∃ ns count, hexSetUnpackDropping fails pointer op (num :: fs.flatMap SetFrame.bytes) = .done (puts ⟨op, []⟩ ns) ∧
          ns.map Node.xiid = (fs.take count).map SetFrame.xiid :=
      setLoopDropping_frames pointer fs [num] rfl hrounds ⟨op, []⟩
    refine ⟨_, hloop, (puts_dropped_iff rfl).mpr ⟨?_, fun n hn => ?_⟩⟩
    · rw [hids]
      exact hnodup.sublist ((take_sublist _ _).map _)
    · have hmem : n.xiid ∈ (fs.take count).map SetFrame.xiid := hids ▸ mem_map_of_mem hn
      obtain ⟨f, hf, hsame⟩ := mem_map.mp hmem
      exact hsame ▸ hfresh f (mem_of_mem_take hf)

/-- **Where unpacking stays within the message**: it comes to its end on every message, with any allocations failing; and
it reads inside the message and drops no property exactly if the message is made of whole frames with ids of their own. -/
theorem unpack_contained_iff (type : MsgType) (op : NodeOperation) (num : UInt8) (body : Bytes) :
    (∀ fails pointer, dataUnpack type fails pointer op num body ≠ .running) ∧
      ((∀ fails pointer, Contained (dataUnpack type fails pointer op num body)) ↔ Framed type op num body) := by
  cases type with
  | get =>
    refine ⟨fun fails _ => getLoop_ends fails (num :: body) num.toNat 1 _, ?_⟩
    rw [← get_contained_iff]
    exact ⟨fun h fails => h fails fun _ => none, fun h fails _ => h fails⟩
  | set =>
    refine ⟨fun fails pointer => setLoopDropping_ends pointer (Nat.succ_pos _) ?_ _, set_contained_iff op num body⟩
    omega

/-- A get message of one byte that counts one frame, and a set message whose one value has no bytes. -/
theorem unpack_not_contained :
    dataUnpack .get (fun _ => false) (fun _ => none) .create 1 [] = .overread ∧
      (∃ u, dataUnpack .set (fun _ => false) (fun _ => none) .create 1 [1, 0, 1, 0, 0, 4] = .done u ∧
        u.dropped = [.create]) ∧
      ¬ ∀ (type : MsgType) (op : NodeOperation) (num : UInt8) (body : Bytes) (fails : Nat → Bool)
        (pointer : Nat → Option Raw), Contained (dataUnpack type fails pointer op num body) := by
  have hover : dataUnpack .get (fun _ => false) (fun _ => none) .create 1 [] = .overread := rfl
  have hempty : dataUnpack .set (fun _ => false) (fun _ => none) .create 1 [1, 0, 1, 0, 0, 4] =
      .done ⟨.create, [.create]⟩ := by
    simp [dataUnpack, hexSetUnpackDropping, setLoopDropping]
  refine ⟨hover, ⟨_, hempty, rfl⟩, fun hall => ?_⟩
  obtain ⟨u, hdone, -⟩ := hall .get .create 1 [] (fun _ => false) fun _ => none
  cases hover.symm.trans hdone

end Qumios.Spec
