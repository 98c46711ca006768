import Qumios.Lib.Upsert
import Qumios.Spec.Contents

/-! Merging operations (`qm_spec_property_operation_merge`).

Each property of the source is copied over the one of the destination that has its identifiers, or into a new one. What
the destination says behind it is a merge by keys of what both said (`merge_spec`), where the source stays as it is. It
is not yet the union with the source's elements preferred: a copy leaves out the code, and a value without bytes, and
`element_num` counts in 16 bits (`merge_union_iff`). -/
namespace Qumios.Spec.Storage
open Function List

/-! ### Operations -/

/-- `qm_spec_property_operation_t`: the handles of its properties. -/
structure PropertyOperation where
  elementNum : UInt16
  property : List Nat
  counted : elementNum = UInt16.ofNat property.length

namespace PropertyOperation

def isAt (m : Memory) (siid : UInt8) (piid : UInt16) (p : Nat) : Bool :=
  match m.cells p with
  | none => false
  | some c => c.siid == siid && c.piid == piid

/-- `qm_spec_property_find`. -/
def find (op : PropertyOperation) (m : Memory) (siid : UInt8) (piid : UInt16) : Option Nat :=
  op.property.find? (isAt m siid piid)

/-- `qm_spec_property_check`. -/
def check (op : PropertyOperation) (m : Memory) (p : Nat) : Bool :=
  match m.cells p with
  | none => false
  | some c => op.property.any (isAt m c.siid c.piid)

theorem counted_append {op : PropertyOperation} (p : Nat) :
    op.elementNum + 1 = UInt16.ofNat (op.property ++ [p]).length := by
  rw [op.counted, length_append]
  exact (UInt16.ofNat_add _ _).symm

/-- `qm_spec_property_add`; it refuses identifiers that are there. -/
def add (op : PropertyOperation) (m : Memory) (p : Nat) : Option PropertyOperation :=
  if op.check m p then none else some ⟨op.elementNum + 1, op.property ++ [p], counted_append p⟩

end PropertyOperation

section

variable (address : Nat → Raw)

/-- A round of the loop of `qm_spec_property_operation_merge`, for the source's property `s`. -/
def mergeOne (m : Memory) (dst : PropertyOperation) (s : Nat) : Option (Memory × PropertyOperation) :=
  match m.cells s with
  | none => none
  | some src =>
    match dst.find m src.siid src.piid with
    | some d => (m.copy address d s).map fun m' => (m', dst)
    | none =>
      match m.create.copy address m.next s with
      | none => none
      | some m' => (dst.add m' m.next).map fun dst' => (m', dst')

def mergeLoop (m : Memory) (dst : PropertyOperation) : List Nat → Option (Memory × PropertyOperation)
  | [] => some (m, dst)
  | s :: rest =>
    match mergeOne address m dst s with
    | none => none
    | some (m', dst') => mergeLoop m' dst' rest

/-- `qm_spec_property_operation_merge`. -/
def merge (m : Memory) (dst src : PropertyOperation) : Option (Memory × PropertyOperation) :=
  mergeLoop address m dst src.property

/-! ### What operations say -/

def Content.xiid (x : Content) : UInt8 × UInt16 := (x.siid, x.piid)

namespace Memory

def contentAt (m : Memory) (p : Nat) : Content := (m.content address p).getD .zero

def view (m : Memory) (ps : List Nat) : List Content := ps.map (m.contentAt address)

def Live (m : Memory) (ps : List Nat) : Prop := ∀ p ∈ ps, (m.cells p).isSome

end Memory

def mergeContents (dst src : List Content) : List Content :=
  Upsert.merge Content.xiid Content.xiid Content.copy Content.zero.copy dst src

variable {address}

theorem copy_self (x : Content) : x.copy x = x := by
  rw [Content.copy, ite_self]

section

variable {m : Memory} (hsafe : Safe m)
include hsafe

theorem content_of_live (address : Nat → Raw) {p : Nat} (hp : (m.cells p).isSome) :
    m.content address p = some (m.contentAt address p) := by
  obtain ⟨c, hc⟩ := Option.isSome_iff_exists.mp hp
  obtain ⟨value, hvalue, _⟩ := (hsafe.stored p c hc).direct address
  have hx : m.content address p = some (c.withValue value) := Memory.content_eq_some.mpr ⟨c, value, hc, hvalue, rfl⟩
  rw [Memory.contentAt, hx]
  rfl

theorem isAt_iff (address : Nat → Raw) {p : Nat} (hp : (m.cells p).isSome) {siid : UInt8} {piid : UInt16} :
    PropertyOperation.isAt m siid piid p = true ↔ (m.contentAt address p).xiid = (siid, piid) := by
  obtain ⟨c, value, hc, _, hold⟩ := Memory.content_eq_some.mp (content_of_live hsafe address hp)
  rw [PropertyOperation.isAt, hc, ← hold]
  simp [Content.xiid, Cell.withValue]

end

variable {m : Memory} {x : Content} {dst : PropertyOperation}

theorem live_of_content {p : Nat} (h : m.content address p = some x) : (m.cells p).isSome := by
  obtain ⟨c, _, hc, _, _⟩ := Memory.content_eq_some.mp h
  exact Option.isSome_iff_exists.mpr ⟨c, hc⟩

/-- One property is there, with another content; the others are as they were. -/
structure Wrote (address : Nat → Raw) (m : Memory) (p : Nat) (x : Content) (m' : Memory) : Prop where
  safe : Safe m'
  live : (m'.cells p).isSome
  written : m'.contentAt address p = x
  others : ∀ q, q ≠ p → (m.cells q).isSome → (m'.cells q).isSome ∧ m'.contentAt address q = m.contentAt address q

theorem Sets.wrote {m' : Memory} (hsafe : Safe m) {p : Nat} {fits : Prop} (h : Sets address m p (some x) fits m') :
    Wrote address m p x m' := by
  have hp : m'.content address p = some x := by rw [h.content, update_self]
  refine ⟨h.safe, live_of_content hp, by rw [Memory.contentAt, hp]; rfl, fun q hq hlive => ?_⟩
  have hsame : m'.content address q = m.content address q := by rw [h.content, update_of_ne hq]
  have hx := content_of_live hsafe address hlive
  exact ⟨live_of_content (hsame.trans hx), by rw [Memory.contentAt, hsame]; rfl⟩

/-- A new property that is a copy. -/
theorem create_copy_wrote (address : Nat → Raw) (hsafe : Safe m) {s : Nat} (hs : (m.cells s).isSome) :
    ∃ m', m.create.copy address m.next s = some m' ∧
      Wrote address m m.next (Content.zero.copy (m.contentAt address s)) m' := by
  have hzero : m.create.content address m.next = some .zero := by rw [Memory.create_content, update_self]
  have hold : ∀ q, (m.cells q).isSome → m.create.content address q = some (m.contentAt address q) := fun q hq => by
    rw [Memory.create_content, update_of_ne (Memory.ne_next hq), content_of_live hsafe address hq]
  have hcreated := Memory.create_safe hsafe
  obtain ⟨m', hm', hsets⟩ := Memory.copy_sets hcreated hzero (hold s hs)
  have hwrote := hsets.wrote hcreated
  refine ⟨m', hm', hwrote.safe, hwrote.live, hwrote.written, fun q hq hlive => ?_⟩
  obtain ⟨hlive', hsame⟩ := hwrote.others q hq (live_of_content (hold q hlive))
  exact ⟨hlive', by rw [hsame, Memory.contentAt, hold q hlive]; rfl⟩

/-- What a round leaves: the destination has the element, and another property keeps what it was, if it has other
identifiers or is the source's own. -/
structure Round (address : Nat → Raw) (m : Memory) (dst : PropertyOperation) (s : Nat) (m' : Memory)
    (dst' : PropertyOperation) : Prop where
  safe : Safe m'
  live : m'.Live dst'.property
  view : m'.view address dst'.property =
    Upsert.upsert Content.xiid Content.xiid Content.copy Content.zero.copy (m.view address dst.property)
      (m.contentAt address s)
  others : ∀ q, (m.cells q).isSome →
    ((m.contentAt address q).xiid ≠ (m.contentAt address s).xiid ∨ q = s) →
    (m'.cells q).isSome ∧ m'.contentAt address q = m.contentAt address q

section

variable {m : Memory} (hsafe : Safe m) {dst : PropertyOperation} (hdst : m.Live dst.property) {s : Nat}
  (hs : (m.cells s).isSome)
include hsafe hdst hs

theorem copy_round (hids : ((m.view address dst.property).map Content.xiid).Nodup) {d : Nat} (hd : d ∈ dst.property)
    (hsame : (m.contentAt address d).xiid = (m.contentAt address s).xiid) :
    ∃ m', m.copy address d s = some m' ∧ Round address m dst s m' dst := by
  obtain ⟨m', hm', hsets⟩ := Memory.copy_sets hsafe (content_of_live hsafe address (hdst d hd)) (content_of_live hsafe address hs)
  have hwrote := hsets.wrote hsafe
  refine ⟨m', hm', hwrote.safe, fun p hp => ?_, ?_, fun q hq hother => ?_⟩
  · by_cases h : p = d
    · exact h ▸ hwrote.live
    · exact (hwrote.others p h (hdst p hp)).1
  · have hmem : (m.contentAt address s).xiid ∈ (m.view address dst.property).map Content.xiid :=
      hsame ▸ mem_map_of_mem (mem_map_of_mem hd)
    rw [Upsert.upsert_of_mem hids hmem, Memory.view, Memory.view, map_map]
    refine map_congr_left fun p hp => ?_
    rw [Function.comp_apply]
    by_cases h : p = d
    · rw [h, hwrote.written, if_pos hsame]
    · rw [Memory.view, map_map] at hids
      have hdifferent : (m.contentAt address p).xiid ≠ (m.contentAt address s).xiid := fun hxiid =>
        h (inj_on_of_nodup_map hids hp hd (hxiid.trans hsame.symm))
      rw [(hwrote.others p h (hdst p hp)).2, if_neg hdifferent]
  · by_cases h : q = d
    · -- the property that is written is the source's own: it is copied over itself
      obtain rfl : q = s := hother.resolve_left fun hxiid => hxiid (h ▸ hsame)
      subst h
      exact ⟨hwrote.live, hwrote.written.trans (copy_self _)⟩
    · exact hwrote.others q h hq

theorem create_round (hnew : ∀ p ∈ dst.property, (m.contentAt address p).xiid ≠ (m.contentAt address s).xiid) :
    ∃ m' dst', m.create.copy address m.next s = some m' ∧ dst.add m' m.next = some dst' ∧
      Round address m dst s m' dst' := by
  obtain ⟨m', hm', hwrote⟩ := create_copy_wrote address hsafe hs
  have hold : ∀ p ∈ dst.property, (m'.cells p).isSome ∧ m'.contentAt address p = m.contentAt address p := fun p hp =>
    hwrote.others p (Memory.ne_next (hdst p hp)) (hdst p hp)
  have hcheck : dst.check m' m.next = false := by
    obtain ⟨c, value, hc, _, hx⟩ := Memory.content_eq_some.mp (content_of_live hwrote.safe address hwrote.live)
    rw [PropertyOperation.check, hc]
    refine any_eq_false.mpr fun p hp hat => hnew p hp ?_
    obtain ⟨hlive, hsame⟩ := hold p hp
    have hxiid := (isAt_iff hwrote.safe address hlive).mp hat
    rw [hsame] at hxiid
    have hkey : (m'.contentAt address m.next).xiid = (c.siid, c.piid) := by rw [← hx]; rfl
    rw [hwrote.written] at hkey
    exact hxiid.trans hkey.symm
  refine ⟨m', _, hm', by rw [PropertyOperation.add, hcheck, if_neg Bool.false_ne_true], hwrote.safe, fun p hp => ?_, ?_,
    fun q hq _ => hwrote.others q (Memory.ne_next hq) hq⟩
  · rcases mem_append.mp hp with hp | hp
    · exact (hold p hp).1
    · exact mem_singleton.mp hp ▸ hwrote.live
  · have hmem : (m.contentAt address s).xiid ∉ (m.view address dst.property).map Content.xiid := fun hmem => by
      obtain ⟨x, hx, hxiid⟩ := mem_map.mp hmem
      obtain ⟨p, hp, rfl⟩ := mem_map.mp hx
      exact hnew p hp hxiid
    rw [Upsert.upsert_of_not_mem hmem, Memory.view, Memory.view, map_append, map_singleton, hwrote.written]
    exact congrArg (· ++ _) (map_congr_left fun p hp => (hold p hp).2)

theorem mergeOne_round (hids : ((m.view address dst.property).map Content.xiid).Nodup) :
    ∃ m' dst', mergeOne address m dst s = some (m', dst') ∧ Round address m dst s m' dst' := by
  obtain ⟨src, value, hsrc, _, hx⟩ := Memory.content_eq_some.mp (content_of_live hsafe address hs)
  have hkey : (m.contentAt address s).xiid = (src.siid, src.piid) := by rw [← hx]; rfl
  rw [mergeOne, hsrc]
  cases hfind : dst.find m src.siid src.piid with
  | some d =>
    have hd : d ∈ dst.property := mem_of_find?_eq_some hfind
    have hsame := (isAt_iff hsafe address (hdst d hd)).mp (find?_some hfind)
    obtain ⟨m', hm', hround⟩ := copy_round hsafe hdst hs hids hd (hsame.trans hkey.symm)
    exact ⟨m', dst, by simp only [hfind, hm', Option.map_some], hround⟩
  | none =>
    have hnew : ∀ p ∈ dst.property, (m.contentAt address p).xiid ≠ (m.contentAt address s).xiid := fun p hp hxiid =>
      find?_eq_none.mp hfind p hp ((isAt_iff hsafe address (hdst p hp)).mpr (hxiid.trans hkey))
    obtain ⟨m', dst', hm', hadd, hround⟩ := create_round hsafe hdst hs hnew
    exact ⟨m', dst', by simp only [hfind, hm', hadd, Option.map_some], hround⟩

end

/-! ### The loop -/

theorem xiid_copy (d s : Content) : (d.copy s).xiid = s.xiid := rfl

theorem xiid_copy_of_eq (d s : Content) (h : d.xiid = s.xiid) : (d.copy s).xiid = d.xiid := h.symm

/-- What the loop leaves: the destination is merged, and another property keeps what it was, if the source does not have
its identifiers or has it itself. -/
structure Looped (address : Nat → Raw) (m : Memory) (dst : PropertyOperation) (src : List Nat) (m' : Memory)
    (dst' : PropertyOperation) : Prop where
  safe : Safe m'
  live : m'.Live dst'.property
  view : m'.view address dst'.property = mergeContents (m.view address dst.property) (m.view address src)
  others : ∀ q, (m.cells q).isSome →
    ((m.contentAt address q).xiid ∉ (m.view address src).map Content.xiid ∨ q ∈ src) →
    (m'.cells q).isSome ∧ m'.contentAt address q = m.contentAt address q

theorem mergeLoop_looped (hsafe : Safe m) (hdst : m.Live dst.property) {src : List Nat} (hsrc : m.Live src)
    (hids : ((m.view address dst.property).map Content.xiid).Nodup)
    (hsrcIds : ((m.view address src).map Content.xiid).Nodup) :
    ∃ m' dst', mergeLoop address m dst src = some (m', dst') ∧ Looped address m dst src m' dst' := by
  induction src generalizing m dst with
  | nil => exact ⟨m, dst, rfl, hsafe, hdst, rfl, fun q hq _ => ⟨hq, rfl⟩⟩
  | cons s rest ih =>
    have hs : (m.cells s).isSome := hsrc s (mem_cons_self ..)
    have hrest : m.Live rest := fun p hp => hsrc p (mem_cons_of_mem _ hp)
    rw [Memory.view, map_cons, map_cons, nodup_cons] at hsrcIds
    obtain ⟨hnot, hrestIds⟩ := hsrcIds
    obtain ⟨m₁, dst₁, hone, hround⟩ := mergeOne_round hsafe hdst hs hids
    -- what is left of the source has other identifiers, and is as it was
    have hkept : ∀ p ∈ rest, (m₁.cells p).isSome ∧ m₁.contentAt address p = m.contentAt address p := fun p hp =>
      hround.others p (hrest p hp) (.inl fun hsame => hnot (hsame ▸ mem_map_of_mem (mem_map_of_mem hp)))
    have hview : m₁.view address rest = m.view address rest := map_congr_left fun p hp => (hkept p hp).2
    have hids₁ : ((m₁.view address dst₁.property).map Content.xiid).Nodup := by
      have hsingle : ([m.contentAt address s].map Content.xiid).Nodup := nodup_singleton _
      rw [hround.view]
      exact Upsert.merge_nodup xiid_copy_of_eq (xiid_copy _) hids hsingle
    obtain ⟨m', dst', hloop, hlooped⟩ := ih hround.safe hround.live (fun p hp => (hkept p hp).1) hids₁ (hview ▸ hrestIds)
    refine ⟨m', dst', by rw [mergeLoop, hone]; exact hloop, hlooped.safe, hlooped.live, ?_, fun q hq hother => ?_⟩
    · rw [hlooped.view, hround.view, hview]
      rfl
    · have hcases : ((m.contentAt address q).xiid ≠ (m.contentAt address s).xiid ∨ q = s) ∧
          ((m.contentAt address q).xiid ∉ (m.view address rest).map Content.xiid ∨ q ∈ rest) := by
        rcases hother with hother | hmem
        · rw [Memory.view, map_cons, map_cons, mem_cons, not_or] at hother
          exact ⟨.inl hother.1, .inl hother.2⟩
        · rcases mem_cons.mp hmem with rfl | hmem
          · exact ⟨.inr rfl, .inl hnot⟩
          · exact ⟨.inl fun hsame => hnot (hsame ▸ mem_map_of_mem (mem_map_of_mem hmem)), .inr hmem⟩
      obtain ⟨hlive, hsame⟩ := hround.others q hq hcases.1
      obtain ⟨hlive', hsame'⟩ := hlooped.others q hlive (by rw [hsame, hview]; exact hcases.2)
      exact ⟨hlive', hsame'.trans hsame⟩

/-! ### Unions -/

/-- The union of two lists of elements, those of the source preferred. -/
structure IsUnion (dst src merged : List Content) : Prop where
  taken : ∀ y ∈ src, y ∈ merged
  others : merged.filter (fun x => x.xiid ∉ src.map Content.xiid) = dst.filter fun x => x.xiid ∉ src.map Content.xiid
  nodup : (merged.map Content.xiid).Nodup

/-- What copies can take over: a code that the element has already, and bytes, unless there are none on either side. -/
structure Copyable (dst src : List Content) : Prop where
  known : ∀ y ∈ src, ∀ x ∈ dst, x.xiid = y.xiid → x.code = y.code ∧ (y.value = [] → x.value = [])
  fresh : ∀ y ∈ src, y.xiid ∉ dst.map Content.xiid → y.code = 0

theorem copy_eq_iff {y : Content} : x.copy y = y ↔ x.code = y.code ∧ (y.value = [] → x.value = []) := by
  rw [Content.copy]
  constructor
  · intro h
    obtain ⟨hcode, hvalue⟩ : x.code = y.code ∧ (if y.value = [] then x.value else y.value) = y.value := by
      rw [Content.ext_iff] at h
      exact ⟨h.2.2.2.1, h.2.2.2.2.2⟩
    exact ⟨hcode, fun hempty => by rwa [if_pos hempty, hempty] at hvalue⟩
  · rintro ⟨hcode, hvalue⟩
    rw [hcode]
    by_cases hempty : y.value = []
    · rw [if_pos hempty, hvalue hempty, ← hempty]
    · rw [if_neg hempty]

theorem mergeContents_union_iff {dst src : List Content} (hdst : (dst.map Content.xiid).Nodup)
    (hsrc : (src.map Content.xiid).Nodup) : IsUnion dst src (mergeContents dst src) ↔ Copyable dst src := by
  have hnodup : ((mergeContents dst src).map Content.xiid).Nodup :=
    Upsert.merge_nodup xiid_copy_of_eq (xiid_copy _) hdst hsrc
  have hknown : ∀ y ∈ src, ∀ x ∈ dst, x.xiid = y.xiid → x.copy y ∈ mergeContents dst src := fun y hy x hx hsame =>
    Upsert.mem_merge_of_mem xiid_copy_of_eq (xiid_copy _) hdst hsrc hx hy hsame
  have hfresh : ∀ y ∈ src, y.xiid ∉ dst.map Content.xiid → Content.zero.copy y ∈ mergeContents dst src :=
    fun y hy hnew => Upsert.mem_merge_of_fresh xiid_copy_of_eq (xiid_copy _) hdst hsrc hy hnew
  constructor
  · intro h
    -- the element with these identifiers is the copy, and is the source's
    refine ⟨fun y hy x hx hsame => copy_eq_iff.mp ?_, fun y hy hnew => ?_⟩
    · exact inj_on_of_nodup_map hnodup (hknown y hy x hx hsame) (h.taken y hy) (xiid_copy x y)
    · have hzero : Content.zero.copy y = y :=
        inj_on_of_nodup_map hnodup (hfresh y hy hnew) (h.taken y hy) (xiid_copy _ y)
      exact (congrArg Content.code hzero).symm
  · intro h
    refine ⟨fun y hy => ?_, ?_, hnodup⟩
    case refine_2 =>
      rw [mergeContents]
      convert Upsert.merge_others xiid_copy_of_eq (xiid_copy Content.zero) hdst hsrc
    by_cases hmem : y.xiid ∈ dst.map Content.xiid
    · obtain ⟨x, hx, hsame⟩ := mem_map.mp hmem
      exact copy_eq_iff.mpr (h.known y hy x hx hsame) ▸ hknown y hy x hx hsame
    · have hzero : Content.zero.copy y = y := copy_eq_iff.mpr ⟨(h.fresh y hy hmem).symm, fun _ => rfl⟩
      exact hzero ▸ hfresh y hy hmem

/-- Two operations of properties that exist, without repeated identifiers. -/
structure Mergeable (address : Nat → Raw) (m : Memory) (dst src : PropertyOperation) : Prop where
  safe : Safe m
  dstLive : m.Live dst.property
  srcLive : m.Live src.property
  dstIds : ((m.view address dst.property).map Content.xiid).Nodup
  srcIds : ((m.view address src.property).map Content.xiid).Nodup

def MergesToUnion (address : Nat → Raw) (m : Memory) (dst src : PropertyOperation) : Prop :=
  ∃ m' dst', merge address m dst src = some (m', dst') ∧
    IsUnion (m.view address dst.property) (m.view address src.property) (m'.view address dst'.property) ∧
    dst'.elementNum.toNat = dst'.property.length ∧
    m'.Live src.property ∧ m'.view address src.property = m.view address src.property

theorem merge_spec {src : PropertyOperation} (h : Mergeable address m dst src) :
    ∃ m' dst', merge address m dst src = some (m', dst') ∧
      m'.view address dst'.property = mergeContents (m.view address dst.property) (m.view address src.property) ∧
      m'.Live src.property ∧ m'.view address src.property = m.view address src.property := by
  obtain ⟨m', dst', hmerge, hlooped⟩ := mergeLoop_looped h.safe h.dstLive h.srcLive h.dstIds h.srcIds
  have hsame : ∀ p ∈ src.property, (m'.cells p).isSome ∧ m'.contentAt address p = m.contentAt address p := fun p hp =>
    hlooped.others p (h.srcLive p hp) (.inr hp)
  exact ⟨m', dst', hmerge, hlooped.view, fun p hp => (hsame p hp).1, map_congr_left fun p hp => (hsame p hp).2⟩

theorem elementNum_toNat_iff (op : PropertyOperation) :
    op.elementNum.toNat = op.property.length ↔ op.property.length < 65536 := by
  rw [op.counted, UInt16.toNat_ofNat']
  exact ⟨fun h => h ▸ Nat.mod_lt _ (by decide), Nat.mod_eq_of_lt⟩

def newElements (dst src : List Content) : List Content := Upsert.fresh Content.xiid Content.xiid dst src

/-- **Merging makes the union** with the source's elements preferred, and leaves the source as it is, exactly if copies can
take over what the source's elements say and 16 bits can count the elements. -/
theorem merge_union_iff {m : Memory} {dst src : PropertyOperation} (h : Mergeable address m dst src) :
    MergesToUnion address m dst src ↔
      Copyable (m.view address dst.property) (m.view address src.property) ∧
        dst.property.length + (newElements (m.view address dst.property) (m.view address src.property)).length < 65536 := by
  obtain ⟨m', dst', hmerge, hview, hlive, hsrc⟩ := merge_spec h
  have hlength : dst'.property.length =
      dst.property.length + (newElements (m.view address dst.property) (m.view address src.property)).length := by
    have hkeys := congrArg List.length
      (Upsert.merge_keys xiid_copy_of_eq (xiid_copy Content.zero) h.dstIds h.srcIds)
    have hcount := congrArg List.length hview
    rw [length_map, length_append, length_map, length_map, Memory.view, length_map] at hkeys
    rw [Memory.view, length_map] at hcount
    exact hcount.trans hkeys
  rw [← mergeContents_union_iff h.dstIds h.srcIds, ← hview, ← hlength, ← elementNum_toNat_iff]
  constructor
  · rintro ⟨n, op, hresult, hunion, hnum, _⟩
    rw [hmerge] at hresult
    cases hresult
    exact ⟨hunion, hnum⟩
  · rintro ⟨hunion, hnum⟩
    exact ⟨m', dst', hmerge, hunion, hnum, hlive, hsrc⟩

/-! ### Two properties -/

def pairCells (c d : Cell) : Nat → Option Cell
  | 0 => some c
  | 1 => some d
  | _ => none

theorem pairCells_fresh (c d : Cell) : ∀ p, 2 ≤ p → pairCells c d p = none
  | 0, h => absurd h (by decide)
  | 1, h => absurd h (by decide)
  | _ + 2, _ => rfl

def Memory.pair (c d : Cell) : Memory := ⟨2, pairCells c d, .empty, pairCells_fresh c d⟩

def byteCell (code : Int8) (byte : UInt8) : Cell := ⟨7, 1, 2, code, 2, 1, .bytes (.ofBytes [byte])⟩

theorem safe_pair (code code' : Int8) (byte byte' : UInt8) : Safe (.pair (byteCell code byte) (byteCell code' byte')) := by
  have hcell : ∀ {p c}, (Memory.pair (byteCell code byte) (byteCell code' byte')).cells p = some c →
      c.len.toNat = 1 ∧ ∃ raw, c.union = .bytes raw := by
    rintro (_ | _ | p) c ⟨⟩
    · exact ⟨rfl, _, rfl⟩
    · exact ⟨rfl, _, rfl⟩
  constructor
  · intro p c hc
    obtain ⟨hlen, raw, hraw⟩ := hcell hc
    exact ⟨fun hlong => absurd (hlen ▸ hlong) (by decide), fun b hb => by rw [hraw] at hb; cases hb⟩
  · intro p q c d b hc _ hb _
    obtain ⟨_, raw, hraw⟩ := hcell hc
    rw [hraw] at hb
    cases hb

theorem counted_singleton (p : Nat) : (1 : UInt16) = UInt16.ofNat [p].length := rfl

def singleton (p : Nat) : PropertyOperation := ⟨1, [p], counted_singleton p⟩

theorem mergeable_pair (address : Nat → Raw) (code code' : Int8) (byte byte' : UInt8) :
    Mergeable address (.pair (byteCell code byte) (byteCell code' byte')) (singleton 0) (singleton 1) where
  safe := safe_pair code code' byte byte'
  dstLive p hp := by
    obtain rfl := mem_singleton.mp hp
    rfl
  srcLive p hp := by
    obtain rfl := mem_singleton.mp hp
    rfl
  dstIds := nodup_singleton _
  srcIds := nodup_singleton _

theorem merge_union_pair :
    MergesToUnion (fun _ => .ofBytes []) (.pair (byteCell 3 4) (byteCell 3 5)) (singleton 0) (singleton 1) := by
  refine (merge_union_iff (mergeable_pair _ 3 3 4 5)).mpr ⟨⟨fun y hy x hx _ => ?_, fun y hy hnew => ?_⟩, by decide⟩
  · obtain rfl := mem_singleton.mp hx
    obtain rfl := mem_singleton.mp hy
    decide
  · obtain rfl := mem_singleton.mp hy
    exact absurd hnew (by decide)

/-- The code of the source is lost. -/
theorem merge_loses_code :
    ¬ ∀ address m dst src, Mergeable address m dst src → MergesToUnion address m dst src := by
  intro h
  have hpair := mergeable_pair (fun _ => .ofBytes []) 0 5 4 4
  obtain ⟨m', dst', hmerge, hview, _, _⟩ := merge_spec hpair
  obtain ⟨n, op, hresult, hunion, _⟩ := h _ _ _ _ hpair
  rw [hmerge] at hresult
  cases hresult
  rw [hview] at hunion
  have hcopyable := (mergeContents_union_iff hpair.dstIds hpair.srcIds).mp hunion
  exact absurd (hcopyable.known _ (mem_singleton_self _) _ (mem_singleton_self _) (by decide)).1 (by decide)

end

end Qumios.Spec.Storage
