import Qumios.Spec.Ownership

/-! What properties say.

The `Content` of a property is what its fields and the bytes of its value say, wherever these are. Each function changes
the content of one property and of no other (`Sets`). -/
namespace Qumios.Spec.Storage
open Wire Function List Option

/-! ### Contents -/

/-- What a property says, wherever its value is. -/
@[ext] structure Content where
  did : UInt32
  siid : UInt8
  piid : UInt16
  code : Int8
  format : UInt8
  value : Bytes
  deriving DecidableEq

section

variable (address : Nat → Raw)

def Cell.withValue (c : Cell) (value : Bytes) : Content := ⟨c.did, c.siid, c.piid, c.code, c.format, value⟩

def Cell.content (c : Cell) (blocks : Ledger Bytes) : Option Content :=
  (c.unpackBytesDirect address blocks).map c.withValue

def Content.zero : Content := ⟨0, 0, 0, 0, 0, []⟩

def Memory.content (m : Memory) (p : Nat) : Option Content := (m.cells p).bind (·.content address m.blocks)

variable {address}

variable {c : Cell} {blocks : Ledger Bytes} {m m' : Memory} {p : Nat} {c' : Option Cell}

theorem Cell.Stored.direct (address : Nat → Raw) (h : c.Stored blocks) :
    ∃ value, c.unpackBytesDirect address blocks = some value ∧ value.length = c.len.toNat := by
  rw [Cell.unpackBytesDirect]
  by_cases hlen : c.len.toNat < buffSize
  · rw [if_pos hlen]
    exact ⟨_, rfl, length_take_of_le (by rw [(c.union.raw address).property]; exact Nat.le_of_lt hlen)⟩
  · obtain ⟨b, hb⟩ := h.behind (Nat.not_lt.mp hlen)
    obtain ⟨block, hread, hblock⟩ := h.pointed b hb
    refine ⟨block.take c.len.toNat, ?_, length_take_of_le hblock⟩
    simp only [if_neg hlen, Cell.readPdata, hb, hread, if_pos hblock]

theorem Cell.direct_congr {blocks' : Ledger Bytes} (h : ∀ b, c.union = .pdata b → blocks'.read b = blocks.read b) :
    c.unpackBytesDirect address blocks' = c.unpackBytesDirect address blocks := by
  rw [Cell.unpackBytesDirect, Cell.unpackBytesDirect, Cell.readPdata, Cell.readPdata]
  cases hu : c.union with
  | bytes raw => rfl
  | pdata b =>
    dsimp only
    rw [h b hu]

/-- The contents of all other properties are as they were. -/
theorem Replaced.content (h : Replaced m p c c' m') (hsafe : Safe m) :
    m'.content address = update (m.content address) p (c'.bind (·.content address m'.blocks)) := by
  funext q
  by_cases hq : q = p
  · rw [hq, update_self, Memory.content, h.cells, update_self]
  · rw [update_of_ne hq, Memory.content, Memory.content, h.cells, update_of_ne hq]
    cases hd : m.cells q with
    | none => rfl
    | some d =>
      have hsame : d.unpackBytesDirect address m'.blocks = d.unpackBytesDirect address m.blocks :=
        Cell.direct_congr fun b hb => h.kept hsafe hq hd hb
      rw [bind_some, bind_some, Cell.content, Cell.content, hsame]

/-! ### What the functions do to contents -/

namespace Content

/-- `qm_spec_property_pack_bytes`: without bytes there is nothing to pack. -/
def pack (x : Content) (bytes : Bytes) : Content := { x with value := if bytes = [] then x.value else bytes }

/-- `qm_spec_property_copy`: not the code, and not a value without bytes. -/
def copy (d s : Content) : Content := { s with code := d.code, value := if s.value = [] then d.value else s.value }

end Content

/-- The content of one property is set, in a memory that stays safe, and tidy if the value fits. -/
structure Sets (address : Nat → Raw) (m : Memory) (p : Nat) (x : Option Content) (fits : Prop) (m' : Memory) : Prop where
  safe : Safe m'
  next : m'.next = m.next
  content : m'.content address = update (m.content address) p x
  tidy : Tidy m → fits → Tidy m'

theorem Replaced.sets (address : Nat → Raw) (h : Replaced m p c c' m') (hsafe : Safe m) {fits : Prop}
    (hfits : fits → ∀ x, c' = some x → x.Agreed) : Sets address m p (c'.bind (·.content address m'.blocks)) fits m' :=
  ⟨h.safe hsafe, h.next, h.content hsafe, fun htidy hfit => h.tidy htidy (hfits hfit)⟩

theorem Sets.trans {m'' : Memory} {x y : Option Content} {fits fits' : Prop} (h : Sets address m p x fits m')
    (h' : Sets address m' p y fits' m'') : Sets address m p y (fits ∧ fits') m'' :=
  ⟨h'.safe, h'.next.trans h.next, by rw [h'.content, h.content, update_idem],
    fun htidy hfit => h'.tidy (h.tidy htidy hfit.1) hfit.2⟩

namespace Memory

variable {m : Memory} {p : Nat}

/-- The fields in front of a value are set. -/
theorem relabel_sets (hsafe : Safe m) {c c' : Cell} (hc : m.cells p = some c) (hlen : c'.len = c.len)
    (hunion : c'.union = c.union) :
    Sets address m p (c'.content address m.blocks) True (m.put p (some c') m.blocks) := by
  have hcells := put_cells hc (some c') m.blocks
  -- a property now has the length and the union of one that it had
  have hold : ∀ {q d}, (m.put p (some c') m.blocks).cells q = some d →
      ∃ d', m.cells q = some d' ∧ d.len = d'.len ∧ d.union = d'.union := fun {q d} hd => by
    rw [hcells] at hd
    by_cases hq : q = p
    · rw [hq, update_self] at hd
      cases hd
      exact ⟨c, hq ▸ hc, hlen, hunion⟩
    · rw [update_of_ne hq] at hd
      exact ⟨d, hd, rfl, rfl⟩
  refine ⟨⟨fun q d hd => ?_, fun q r d e b hd he hdb heb => ?_⟩, rfl, ?_, fun htidy _ => ⟨fun q d hd => ?_, fun b hb => ?_⟩⟩
  · obtain ⟨d', hd', hl, hu⟩ := hold hd
    have hstored := hsafe.stored q d' hd'
    exact ⟨by rw [hl, hu]; exact hstored.behind, by rw [hl, hu]; exact hstored.pointed⟩
  · obtain ⟨d', hd', _, hu⟩ := hold hd
    obtain ⟨e', he', _, hu'⟩ := hold he
    exact hsafe.apart q r d' e' b hd' he' (hu ▸ hdb) (hu' ▸ heb)
  · funext q
    by_cases hq : q = p
    · rw [hq, update_self, Memory.content, hcells, update_self]
      rfl
    · rw [update_of_ne hq, Memory.content, Memory.content, hcells, update_of_ne hq]
      rfl
  · obtain ⟨d', hd', hl, hu⟩ := hold hd
    have hagreed := htidy.agreed q d' hd'
    exact ⟨by rw [hl, hu]; exact hagreed.frees, by rw [hl, hu]; exact hagreed.reads⟩
  · obtain ⟨q, d, hd, hdb⟩ := htidy.owned b hb
    by_cases hq : q = p
    · rw [hq, hc] at hd
      cases hd
      exact ⟨p, c', by rw [hcells, update_self], hunion.trans hdb⟩
    · exact ⟨q, d, by rw [hcells, update_of_ne hq, hd], hdb⟩

variable {x : Content}

theorem content_eq_some : m.content address p = some x ↔
    ∃ c value, m.cells p = some c ∧ c.unpackBytesDirect address m.blocks = some value ∧ c.withValue value = x := by
  rw [content]
  constructor
  · intro h
    obtain ⟨c, hc, hx⟩ := bind_eq_some_iff.mp h
    obtain ⟨value, hvalue, rfl⟩ := map_eq_some_iff.mp hx
    exact ⟨c, value, hc, hvalue, rfl⟩
  · rintro ⟨c, value, hc, hvalue, rfl⟩
    rw [hc, bind_some, Cell.content, hvalue]
    rfl

theorem create_cells (m : Memory) : m.create.cells = update m.cells m.next (some .zero) := rfl

theorem create_safe (hsafe : Safe m) : Safe m.create := by
  have hold : ∀ {q d b}, m.create.cells q = some d → d.union = .pdata b → m.cells q = some d := fun {q d b} hd hb => by
    by_cases hq : q = m.next
    · rw [hq, create_cells, update_self] at hd
      cases hd
      cases hb
    · rwa [create_cells, update_of_ne hq] at hd
  refine ⟨fun q d hd => ?_, fun q r d e b hd he hdb heb => hsafe.apart q r d e b (hold hd hdb) (hold he heb) hdb heb⟩
  by_cases hq : q = m.next
  · rw [hq, create_cells, update_self] at hd
    cases hd
    exact ⟨nofun, nofun⟩
  · rw [create_cells, update_of_ne hq] at hd
    exact hsafe.stored q d hd

theorem create_tidy (htidy : Tidy m) : Tidy m.create := by
  refine ⟨fun q d hd => ?_, fun b hb => ?_⟩
  · by_cases hq : q = m.next
    · rw [hq, create_cells, update_self] at hd
      cases hd
      exact ⟨⟨fun _ => Nat.zero_le _, fun _ => ⟨_, rfl⟩⟩, ⟨fun _ => Nat.zero_lt_succ _, fun _ => ⟨_, rfl⟩⟩⟩
    · rw [create_cells, update_of_ne hq] at hd
      exact htidy.agreed q d hd
  · obtain ⟨q, d, hd, hdb⟩ := htidy.owned b hb
    have hq : q ≠ m.next := ne_next (by rw [hd]; rfl)
    exact ⟨q, d, by rw [create_cells, update_of_ne hq, hd], hdb⟩

theorem create_content : m.create.content address = update (m.content address) m.next (some .zero) := by
  funext q
  by_cases hq : q = m.next
  · rw [hq, update_self, content, create_cells, update_self]
    rfl
  · rw [update_of_ne hq, content, content, create_cells, update_of_ne hq]
    rfl

section
variable (hsafe : Safe m) (hx : m.content address p = some x)
include hsafe hx

/-- A number of fewer than eight bytes, which stand at the start of the union. -/
theorem packInPlace_sets (format : UInt8) {len : UInt16} {raw : Cell → Raw} {data : Bytes}
    (hlen : len.toNat = data.length) (hsize : data.length < buffSize) (hraw : ∀ c, data <+: (raw c).val) :
    ∃ m', m.packInPlace p format len raw = some m' ∧
      Sets address m p (some { x with format := format, value := data }) True m' := by
  obtain ⟨c, _, hc, _, rfl⟩ := content_eq_some.mp hx
  have hsmall : len.toNat < buffSize := hlen ▸ hsize
  obtain ⟨m', hm', hreplaced⟩ := packInPlace_replaced hsafe hc format hsmall raw
  refine ⟨m', hm', ?_⟩
  have hsets := hreplaced.sets address hsafe fun _ : True => by
    rintro _ ⟨⟩
    exact ⟨⟨fun _ => Nat.le_of_lt hsmall, fun _ => ⟨_, rfl⟩⟩, ⟨fun _ => hsmall, fun _ => ⟨_, rfl⟩⟩⟩
  have hread : Cell.unpackBytesDirect address
      { c with format := format, len := len, union := .bytes (raw c) } m'.blocks = some data := by
    rw [Cell.unpackBytesDirect, if_pos hsmall, hlen, Union.raw, ← prefix_iff_eq_take.mp (hraw c)]
  rw [bind_some, Cell.content, hread] at hsets
  exact hsets

/-- Bytes that `len` can count. -/
theorem packBytes_sets (bytes : Bytes) (hcount : bytes.length < 65536) :
    ∃ m', m.packBytes p bytes = some m' ∧ Sets address m p (some (x.pack bytes)) (bytes.length ≠ buffSize) m' := by
  obtain ⟨c, value, hc, _, rfl⟩ := content_eq_some.mp hx
  by_cases hempty : bytes.length = 0
  · have hnil : bytes = [] := length_eq_zero_iff.mp hempty
    have hsame : (c.withValue value).pack bytes = c.withValue value := by
      rw [Content.pack, if_pos hnil]
    refine ⟨m, by simp only [packBytes, hc, if_pos hempty], hsafe, rfl, ?_, fun htidy _ => htidy⟩
    rw [hsame, ← hx, update_eq_self]
  · have hlen : (UInt16.ofNat bytes.length).toNat = bytes.length := by
      exact Nat.mod_eq_of_lt hcount
    obtain ⟨m', hm', hreplaced, hblock⟩ := packBytes_replaced hsafe hc hempty
    refine ⟨m', hm', ?_⟩
    have hread : (packed c bytes m.blocks.next).unpackBytesDirect address m'.blocks = some bytes := by
      rw [Cell.unpackBytesDirect, packed]
      rw [hlen]
      by_cases hsmall : bytes.length < buffSize
      · rw [if_pos hsmall, if_pos hsmall, Union.raw, Raw.ofBytes]
        rw [take_take, Nat.min_eq_left (Nat.le_of_lt hsmall), take_left]
      · rw [if_neg hsmall, Cell.readPdata, if_neg hsmall]
        dsimp only
        rw [hblock (Nat.not_lt.mp hsmall)]
        dsimp only
        rw [hlen, if_pos (by simp), take_left]
    have hsets := hreplaced.sets address hsafe fun hfit : bytes.length ≠ buffSize => by
      rintro _ ⟨⟩
      exact packed_agreed c m.blocks.next hlen hfit
    rw [bind_some, Cell.content, hread] at hsets
    rw [Content.pack, if_neg fun hnil => hempty (length_eq_zero_iff.mpr hnil)]
    exact hsets

theorem setFormat_sets (format : UInt8) :
    Sets address m p (some { x with format := format }) True (m.setFormat p format) := by
  obtain ⟨c, value, hc, hvalue, rfl⟩ := content_eq_some.mp hx
  have hsets : Sets address m p (Cell.content address { c with format := format } m.blocks) True
      (m.put p (some { c with format := format }) m.blocks) := relabel_sets hsafe hc rfl rfl
  have hcontent : Cell.content address { c with format := format } m.blocks =
      some { c.withValue value with format := format } := congrArg (Option.map _) hvalue
  rw [setFormat, hc]
  exact hcontent ▸ hsets

theorem delete_sets : ∃ m', m.delete p = some m' ∧ Sets address m p none True m' := by
  obtain ⟨c, _, hc, _, _⟩ := content_eq_some.mp hx
  obtain ⟨m', hm', hreplaced⟩ := delete_replaced hsafe hc
  exact ⟨m', hm', hreplaced.sets address hsafe fun _ => nofun⟩

end

/-- A copy says what its source says, apart from the code; a value without bytes is not copied. -/
theorem copy_sets (hsafe : Safe m) {d s : Nat} {y : Content} (hx : m.content address d = some x)
    (hy : m.content address s = some y) :
    ∃ m', m.copy address d s = some m' ∧ Sets address m d (some (x.copy y)) True m' := by
  obtain ⟨dst, destBytes, hdst, hdest, rfl⟩ := content_eq_some.mp hx
  obtain ⟨src, srcBytes, hsrc, hbytes, rfl⟩ := content_eq_some.mp hy
  obtain ⟨_, hsrc', hlen⟩ := (hsafe.stored s src hsrc).direct address
  rw [hbytes] at hsrc'
  cases hsrc'
  -- the fields are set first
  let labelled : Cell := { dst with did := src.did, siid := src.siid, piid := src.piid, format := src.format }
  let m₁ := m.put d (some labelled) m.blocks
  have hread : labelled.unpackBytesDirect address m.blocks = some destBytes := hdest
  have hcontent : labelled.content address m.blocks = some (labelled.withValue destBytes) := by
    rw [Cell.content, hread]
    rfl
  have hlabel : Sets address m d (some (labelled.withValue destBytes)) True m₁ := hcontent ▸ relabel_sets hsafe hdst rfl rfl
  have hx₁ : m₁.content address d = some (labelled.withValue destBytes) := by rw [hlabel.content, update_self]
  obtain ⟨m₂, hm₂, hpack⟩ := packBytes_sets hlabel.safe hx₁ srcBytes (hlen ▸ src.len.toNat_lt)
  have hsame : (labelled.withValue destBytes).pack srcBytes = (dst.withValue destBytes).copy (src.withValue srcBytes) := rfl
  have hpacked : Sets address m d (some ((dst.withValue destBytes).copy (src.withValue srcBytes))) True m₂ := by
    have htrans := hlabel.trans hpack
    refine ⟨htrans.safe, htrans.next, hsame ▸ htrans.content, fun htidy _ => htrans.tidy htidy ⟨trivial, ?_⟩⟩
    rw [hlen]
    exact (htidy.agreed s src hsrc).ne_size
  have hunfold : m.copy address d s =
      if destBytes.length = srcBytes.length then if destBytes ≠ srcBytes then m₁.packBytes d srcBytes else some m₁
      else m₁.packBytes d srcBytes := by
    simp only [copy, hdst, hsrc]
    have hreadSrc : src.unpackBytesDirect address m₁.blocks = some srcBytes := hbytes
    have hreadDst : labelled.unpackBytesDirect address m₁.blocks = some destBytes := hdest
    rw [hreadDst, hreadSrc]
  by_cases heq : destBytes = srcBytes
  · refine ⟨m₁, by rw [hunfold, if_pos (congrArg _ heq), if_neg (not_not.mpr heq)], ?_⟩
    have hcopied : (dst.withValue destBytes).copy (src.withValue srcBytes) = labelled.withValue destBytes := by
      rw [← hsame, Content.pack, heq]
      exact congrArg _ (ite_self _)
    exact hcopied ▸ hlabel
  · refine ⟨m₂, ?_, hpacked⟩
    rw [hunfold, if_pos heq, ite_self, hm₂]

end Memory

end

end Qumios.Spec.Storage
