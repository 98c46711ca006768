import Qumios.Spec.Storage

/-! Who owns the blocks of values.

`Safe` is what holds of the memory whatever is packed: a length of eight or more belongs to a pointer, a pointer to a
live block that is long enough, and no two properties have one block. `Tidy` says more: all functions agree on where a
value is, and every block has its property. Packing and deleting are both the replacement of one cell (`Replaced`), which
keeps the one always and the other if the functions agree on the new cell. -/
namespace Qumios.Spec.Storage
open Function

/-! ### What is safe -/

/-- A value as its cell says: a long one is behind a pointer, and a pointer leads to enough bytes. -/
structure Cell.Stored (c : Cell) (blocks : Ledger Bytes) : Prop where
  behind : buffSize ≤ c.len.toNat → ∃ b, c.union = .pdata b
  pointed : ∀ b, c.union = .pdata b → ∃ block, blocks.read b = some block ∧ c.len.toNat ≤ block.length

structure Safe (m : Memory) : Prop where
  stored : ∀ p c, m.cells p = some c → c.Stored m.blocks
  apart : ∀ p q c d b, m.cells p = some c → m.cells q = some d → c.union = .pdata b → d.union = .pdata b → p = q

theorem safe_empty : Safe .empty := ⟨nofun, nofun⟩

def Cell.Frees (c : Cell) (b : Nat) : Prop := buffSize < c.len.toNat ∧ c.union = .pdata b

instance (c : Cell) (b : Nat) : Decidable (c.Frees b) :=
  inferInstanceAs (Decidable (buffSize < c.len.toNat ∧ c.union = .pdata b))

variable {c : Cell}

/-- A value that is stored can be released: its block is freed, and no other. -/
theorem Cell.Stored.release {blocks : Ledger Bytes} (h : c.Stored blocks) :
    ∃ blocks', c.release blocks = some blocks' ∧ blocks'.next = blocks.next ∧
      ∀ b, blocks'.read b = if c.Frees b then none else blocks.read b := by
  rw [Cell.release]
  by_cases hlen : buffSize < c.len.toNat
  · obtain ⟨b, hb⟩ := h.behind (Nat.le_of_lt hlen)
    obtain ⟨block, hread, _⟩ := h.pointed b hb
    refine ⟨blocks.drop b, ?_, rfl, fun b' => ?_⟩
    · rw [if_pos hlen, hb]
      exact Ledger.free_of_read hread
    · have hfrees : c.Frees b' ↔ b' = b := by
        rw [Frees, hb, Union.pdata.injEq]
        exact ⟨fun h => h.2.symm, fun h => ⟨hlen, h.symm⟩⟩
      simp only [Ledger.read_drop, hfrees]
  · refine ⟨blocks, if_neg hlen, rfl, fun b => ?_⟩
    rw [if_neg fun hfrees : c.Frees b => hlen hfrees.1]

/-- One property, `c` so far, has another cell or none, and its block is freed. A block that is allocated for it was not
there. -/
structure Replaced (m : Memory) (p : Nat) (c : Cell) (c' : Option Cell) (m' : Memory) : Prop where
  old : m.cells p = some c
  next : m'.next = m.next
  cells : m'.cells = update m.cells p c'
  stored : ∀ x, c' = some x → x.Stored m'.blocks
  allocated : ∀ x b, c' = some x → x.union = .pdata b → m.blocks.read b = none
  others : ∀ b, (∀ x, c' = some x → x.union ≠ .pdata b) →
    m'.blocks.read b = if c.Frees b then none else m.blocks.read b

namespace Replaced

variable {m m' : Memory} {p : Nat} {c : Cell} {c' : Option Cell}

theorem kept (h : Replaced m p c c' m') (hsafe : Safe m) {q : Nat} {d : Cell} (hq : q ≠ p) (hd : m.cells q = some d)
    {b : Nat} (hb : d.union = .pdata b) : m'.blocks.read b = m.blocks.read b := by
  obtain ⟨block, hread, _⟩ := (hsafe.stored q d hd).pointed b hb
  rw [h.others b fun x hx hxb => by rw [h.allocated x b hx hxb] at hread; cases hread]
  exact if_neg fun hfrees => hq (hsafe.apart q p d c b hd h.old hb hfrees.2)

theorem safe (h : Replaced m p c c' m') (hsafe : Safe m) : Safe m' := by
  have hold : ∀ {q d}, q ≠ p → m'.cells q = some d → m.cells q = some d := fun hq hd => by
    rwa [h.cells, update_of_ne hq] at hd
  have hnew : ∀ {d}, m'.cells p = some d → c' = some d := fun hd => by rwa [h.cells, update_self] at hd
  -- a new block is not one that another property has
  have hfresh : ∀ {q d x b}, q ≠ p → m.cells q = some d → d.union = .pdata b → c' = some x → x.union ≠ .pdata b :=
    fun hq hd hb hx hxb => by
      obtain ⟨block, hread, _⟩ := (hsafe.stored _ _ hd).pointed _ hb
      rw [h.allocated _ _ hx hxb] at hread
      cases hread
  constructor
  · intro q d hd
    by_cases hq : q = p
    · exact h.stored d (hnew (hq ▸ hd))
    · have hstored := hsafe.stored q d (hold hq hd)
      refine ⟨hstored.behind, fun b hb => ?_⟩
      rw [h.kept hsafe hq (hold hq hd) hb]
      exact hstored.pointed b hb
  · intro q r d e b hd he hdb heb
    by_cases hq : q = p
    · by_cases hr : r = p
      · rw [hq, hr]
      · exact absurd hdb (hfresh hr (hold hr he) heb (hnew (hq ▸ hd)))
    · by_cases hr : r = p
      · exact absurd heb (hfresh hq (hold hq hd) hdb (hnew (hr ▸ he)))
      · exact hsafe.apart q r d e b (hold hq hd) (hold hr he) hdb heb

end Replaced

/-! ### What is tidy -/

/-- The value is in place exactly if those who read it and those who free it say so: `unpack_bytes` and whatever frees, and
`unpack_string` and `unpack_bytes_direct`. -/
structure Cell.Agreed (c : Cell) : Prop where
  frees : (∃ raw, c.union = .bytes raw) ↔ c.len.toNat ≤ buffSize
  reads : (∃ raw, c.union = .bytes raw) ↔ c.len.toNat < buffSize

theorem Cell.Agreed.ne_size (h : c.Agreed) : c.len.toNat ≠ buffSize := fun hlen =>
  absurd (h.reads.mp (h.frees.mpr (Nat.le_of_eq hlen))) (hlen ▸ Nat.lt_irrefl _)

theorem Cell.Agreed.unpackBytes_eq {address : Nat → Raw} (h : c.Agreed) (blocks : Ledger Bytes) :
    c.unpackBytes address blocks = c.unpackBytesDirect address blocks := by
  have hiff : c.len.toNat ≤ buffSize ↔ c.len.toNat < buffSize := h.frees.symm.trans h.reads
  simp only [Cell.unpackBytes, Cell.unpackBytesDirect, hiff]

theorem Cell.Agreed.frees_of_pdata (h : c.Agreed) {b : Nat} (hb : c.union = .pdata b) : c.Frees b := by
  refine ⟨Nat.not_le.mp fun hlen => ?_, hb⟩
  obtain ⟨raw, hraw⟩ := h.frees.mpr hlen
  rw [hb] at hraw
  cases hraw

/-- All agree on where values are, and every block belongs to a property. -/
structure Tidy (m : Memory) : Prop where
  agreed : ∀ p c, m.cells p = some c → c.Agreed
  owned : ∀ b, m.blocks.read b ≠ none → ∃ p c, m.cells p = some c ∧ c.union = .pdata b

theorem tidy_empty : Tidy .empty := ⟨nofun, fun _ hb => absurd rfl hb⟩

theorem Replaced.tidy {m m' : Memory} {p : Nat} {c' : Option Cell} (h : Replaced m p c c' m') (htidy : Tidy m)
    (hagreed : ∀ x, c' = some x → x.Agreed) : Tidy m' := by
  constructor
  · intro q d hd
    rw [h.cells] at hd
    by_cases hq : q = p
    · rw [hq, update_self] at hd
      exact hagreed d hd
    · rw [update_of_ne hq] at hd
      exact htidy.agreed q d hd
  · intro b hb
    by_cases hnew : ∃ x, c' = some x ∧ x.union = .pdata b
    · obtain ⟨x, hx, hxb⟩ := hnew
      exact ⟨p, x, by rw [h.cells, update_self, hx], hxb⟩
    · rw [h.others b fun x hx hxb => hnew ⟨x, hx, hxb⟩] at hb
      by_cases hfrees : c.Frees b
      · exact absurd (if_pos hfrees) hb
      · rw [if_neg hfrees] at hb
        obtain ⟨q, d, hd, hdb⟩ := htidy.owned b hb
        -- the owner is another property: this one's block would have been freed
        have hq : q ≠ p := fun hq => by
          rw [hq, h.old] at hd
          cases hd
          exact hfrees ((htidy.agreed p c h.old).frees_of_pdata hdb)
        exact ⟨q, d, by rw [h.cells, update_of_ne hq, hd], hdb⟩

/-! ### What the functions replace -/

namespace Memory

variable {address : Nat → Raw} {m : Memory} {p : Nat} {c : Cell}

theorem put_cells (hc : m.cells p = some c) (c' : Option Cell) (blocks : Ledger Bytes) :
    (m.put p c' blocks).cells = update m.cells p c' := by
  have hcells : (m.put p c' blocks).cells = update m.cells p ((m.cells p).bind fun _ => c') := rfl
  rw [hcells, hc]
  rfl

theorem packInPlace_replaced (hsafe : Safe m) (hc : m.cells p = some c) (format : UInt8) {len : UInt16}
    (hlen : len.toNat < buffSize) (raw : Cell → Raw) :
    ∃ m', m.packInPlace p format len raw = some m' ∧
      Replaced m p c (some { c with format := format, len := len, union := .bytes (raw c) }) m' := by
  obtain ⟨blocks, hrelease, _, hreads⟩ := (hsafe.stored p c hc).release
  refine ⟨m.put p (some { c with format := format, len := len, union := .bytes (raw c) }) blocks,
    by simp only [packInPlace, hc, hrelease], hc, rfl, put_cells hc _ _, ?_, ?_, fun b _ => hreads b⟩
  · rintro x ⟨⟩
    exact ⟨fun hlong => absurd hlong (Nat.not_le.mpr hlen), nofun⟩
  · rintro x _ ⟨⟩ hb
    cases hb

theorem delete_replaced (hsafe : Safe m) (hc : m.cells p = some c) :
    ∃ m', m.delete p = some m' ∧ Replaced m p c none m' := by
  obtain ⟨blocks, hrelease, _, hreads⟩ := (hsafe.stored p c hc).release
  exact ⟨m.put p none blocks, by simp only [delete, hc, hrelease], hc, rfl, put_cells hc _ _, nofun, nofun,
    fun b _ => hreads b⟩

/-- The cell that `qm_spec_property_pack_bytes` leaves, where the next block is `next`. -/
def packed (c : Cell) (bytes : Bytes) (next : Nat) : Cell :=
  { c with
    len := UInt16.ofNat bytes.length
    union := if bytes.length < buffSize then .bytes (.ofBytes bytes) else .pdata next }

theorem packed_agreed (c : Cell) {bytes : Bytes} (next : Nat) (hlen : (UInt16.ofNat bytes.length).toNat = bytes.length)
    (hfit : bytes.length ≠ buffSize) : (packed c bytes next).Agreed := by
  rw [packed]
  by_cases hsmall : bytes.length < buffSize
  · rw [if_pos hsmall]
    refine ⟨⟨fun _ => ?_, fun _ => ⟨_, rfl⟩⟩, ⟨fun _ => ?_, fun _ => ⟨_, rfl⟩⟩⟩
    · rw [hlen]
      exact Nat.le_of_lt hsmall
    · rwa [hlen]
  · rw [if_neg hsmall]
    refine ⟨⟨nofun, fun hle => ?_⟩, ⟨nofun, fun hlt => ?_⟩⟩
    · rw [hlen] at hle
      exact absurd (Nat.lt_of_le_of_ne hle hfit) hsmall
    · rw [hlen] at hlt
      exact absurd hlt hsmall

theorem packBytes_replaced (hsafe : Safe m) (hc : m.cells p = some c) {bytes : Bytes} (hbytes : bytes.length ≠ 0) :
    ∃ m', m.packBytes p bytes = some m' ∧ Replaced m p c (some (packed c bytes m.blocks.next)) m' ∧
      (buffSize ≤ bytes.length → m'.blocks.read m.blocks.next = some (bytes ++ [0])) := by
  obtain ⟨blocks, hrelease, hnext, hreads⟩ := (hsafe.stored p c hc).release
  have hle : (UInt16.ofNat bytes.length).toNat ≤ bytes.length := by
    exact Nat.mod_le _ _
  by_cases hsmall : bytes.length < buffSize
  · have hcell : packed c bytes m.blocks.next =
        { c with len := UInt16.ofNat bytes.length, union := .bytes (.ofBytes bytes) } := by
      rw [packed, if_pos hsmall]
    rw [hcell]
    refine ⟨m.put p (some { c with len := UInt16.ofNat bytes.length, union := .bytes (.ofBytes bytes) }) blocks,
      by simp only [packBytes, hc, hrelease, if_neg hbytes, if_pos hsmall],
      ⟨hc, rfl, put_cells hc _ _, ?_, ?_, fun b _ => hreads b⟩, fun hlong => absurd hsmall (Nat.not_lt.mpr hlong)⟩
    · rintro x ⟨⟩
      exact ⟨fun hlong => absurd (Nat.le_trans hlong hle) (Nat.not_le.mpr hsmall), nofun⟩
    · rintro x b ⟨⟩ hb
      cases hb
  · have hcell : packed c bytes m.blocks.next =
        { c with len := UInt16.ofNat bytes.length, union := .pdata m.blocks.next } := by
      rw [packed, if_neg hsmall]
    have hread : (blocks.malloc (bytes ++ [0])).read m.blocks.next = some (bytes ++ [0]) := by
      rw [Ledger.read_malloc, if_pos hnext]
    rw [hcell]
    refine ⟨m.put p (some { c with len := UInt16.ofNat bytes.length, union := .pdata m.blocks.next })
        (blocks.malloc (bytes ++ [0])),
      by simp only [packBytes, hc, hrelease, hnext, if_neg hbytes, if_neg hsmall],
      ⟨hc, rfl, put_cells hc _ _, ?_, ?_, fun b hb => ?_⟩, fun _ => hread⟩
    · rintro x ⟨⟩
      refine ⟨fun _ => ⟨_, rfl⟩, fun b hb => ⟨bytes ++ [0], Union.pdata.inj hb ▸ hread, ?_⟩⟩
      rw [List.length_append]
      exact Nat.le_add_right_of_le hle
    · rintro x b ⟨⟩ hb
      rw [← Union.pdata.inj hb]
      exact m.blocks.read_next
    · have hother : blocks.next ≠ b := fun hsame => hb _ rfl (by rw [← hsame, hnext])
      exact (Ledger.read_malloc ..).trans ((if_neg hother).trans (hreads b))

end Memory

end Qumios.Spec.Storage
