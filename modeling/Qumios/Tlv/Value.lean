import Qumios.Lib.Run
import Qumios.Tlv.Block

/-! The value of one block: `qm_tlv_pack_*` into it and `qm_tlv_unpack_*` out of it.

A value of at most `CONFIG_QM_TLV_BUF_SIZE` bytes lies in the block, a longer one on the heap
behind a pointer that shares its place; which of the two it is, is read off `len`. `Tlv.Block`
takes this for granted and has one string of bytes; here the union, the heap and what is
given back to it are explicit.

The two agree as long as `len` holds the size and says where the value is: sizes that fit it,
numbers that fit the block, and no float over a value on the heap, which
`qm_tlv_pack_float32` alone does not release. A pack that gets no memory has already given up
the value before it. And no caller is protected by the size of its buffer: `*size` is
overwritten before it is compared. -/
namespace Qumios.Tlv
open Run Wire List

/-- `value`, by the member that was written last. -/
inductive Held where
  /-- What is known of `bytes`, from its start. -/
  | bytes (known : Bytes)
  /-- `pdata`: null, or an allocation by its number, with what it holds. -/
  | pdata (p : Option (Nat × Bytes))
  deriving DecidableEq, Repr

/-- A block, with how many allocations its values have taken and which were released, in order. -/
structure Cell where
  len : Nat
  value : Held
  allocated : Nat := 0
  freed : List Nat := []
  deriving DecidableEq, Repr

/-- `qm_tlv_block_creat`, which clears the block. -/
def Cell.creat (cfg : Config) : Cell := ⟨0, .bytes (List.replicate cfg.bufSize 0), 0, []⟩

def Held.live : Held → List Nat
  | .pdata (some (p, _)) => [p]
  | _ => []

/-- The `len` bytes that are copied out, if they are known: those of the member that `len` says. -/
def Cell.read (cfg : Config) (c : Cell) : Option Bytes :=
  let member : Bytes :=
    match c.value with
    | .bytes known => if c.len ≤ cfg.bufSize then known else []
    | .pdata (some (_, data)) => if c.len ≤ cfg.bufSize then [] else data
    | .pdata none => []
  if c.len ≤ member.length then some (member.take c.len) else none

/-! ### Packing -/

/-- A pack; the allocator's answer comes with those that may ask for memory. -/
inductive Pack where
  | uint8 (value : UInt8)
  | uint16 (value : UInt16)
  | uint32 (value : UInt32)
  /-- By its four bytes in memory. -/
  | float32 (a b c d : UInt8)
  | bytes (bytes : Bytes) (mem : Bool)
  | string (str : Bytes) (mem : Bool)
  deriving DecidableEq, Repr

def bigEndian32 (v : UInt32) : Bytes :=
  [(v >>> 24).toUInt8, (v >>> 16).toUInt8, (v >>> 8).toUInt8, v.toUInt8]

/-- What a pack is to store. -/
def Pack.image : Pack → Bytes
  | .uint8 v => [v]
  | .uint16 v => Width.two.put v.toNat
  | .uint32 v => bigEndian32 v
  | .float32 a b c d => [a, b, c, d]
  | .bytes b _ => b
  | .string b _ => b

def Pack.isNumber : Pack → Bool
  | .bytes _ _ | .string _ _ => false
  | _ => true

def Pack.isFloat : Pack → Bool
  | .float32 _ _ _ _ => true
  | _ => false

/-- The old value is released, if `len` says that there is one on the heap; `none` where what
is released is no pointer. -/
def Cell.release (cfg : Config) (c : Cell) : Option Cell :=
  if c.len > cfg.bufSize then
    match c.value with
    | .bytes _ => none
    | .pdata none => some c
    | .pdata (some (p, _)) => some { c with value := .pdata none, freed := c.freed ++ [p] }
  else some c

def Cell.number (cfg : Config) (c : Cell) (image : Bytes) : Cell :=
  { c with len := image.length, value := .bytes (image ++ List.replicate (cfg.bufSize - image.length) 0) }

/-- `qm_tlv_pack_uint8`, `_uint16`, `_uint32`, `_float32`, `_bytes` and `_string`. The first one
writes one byte and no more; the float does not release. -/
def Cell.pack (cfg : Config) (c : Cell) : Pack → Option (Cell × Except Errno Unit)
  | .uint8 v => do
    let c ← c.release cfg
    let rest := match c.value with
      | .bytes known => known.tail
      | .pdata _ => []
    return ({ c with len := 1, value := .bytes (v :: rest) }, .ok ())
  | .uint16 v => do
    let c ← c.release cfg
    return (c.number cfg (Width.two.put v.toNat), .ok ())
  | .uint32 v => do
    let c ← c.release cfg
    return (c.number cfg (bigEndian32 v), .ok ())
  | .float32 a b d e => some (c.number cfg [a, b, d, e], .ok ())
  | .bytes b mem => packed b mem
  | .string b mem => packed b mem
where
  packed (b : Bytes) (mem : Bool) : Option (Cell × Except Errno Unit) :=
    if b.length = 0 then some (c, .error .einval)
    else do
      let c ← c.release cfg
      let len := b.length % cfg.lengthByte.limit
      if b.length ≤ cfg.bufSize then
        return ({ c with len, value := .bytes (b ++ List.replicate (cfg.bufSize - b.length) 0) }, .ok ())
      else if mem then
        return ({ c with len, value := .pdata (some (c.allocated, b)), allocated := c.allocated + 1 }, .ok ())
      else return ({ c with value := .pdata none }, .error .enomem)

def store (cfg : Config) : Machine Cell Pack (Except Errno Unit) := ⟨Cell.pack cfg⟩

/-- `qm_tlv_block_delete`: everything that was released by then. -/
def Cell.delete (cfg : Config) (c : Cell) : Option (List Nat) :=
  if c.len > cfg.bufSize then
    match c.value with
    | .bytes _ => none
    | .pdata none => some c.freed
    | .pdata (some (p, _)) => some (c.freed ++ [p])
  else some c.freed

/-! ### Unpacking -/

structure Unpacked where
  ret : Except Errno Unit
  /-- `*size` afterwards. -/
  size : Nat
  /-- How many bytes of the buffer were written. -/
  written : Nat
  /-- Which, if they are known. -/
  bytes : Option Bytes
  deriving DecidableEq

/-- A value and what ends it, into a buffer of `size` bytes or none. `*size` is the length of the
value before it is compared with it. -/
def unpackInto (terminator : Bytes) (cfg : Config) (c : Cell) (buffer : Bool) (_size : Nat) : Unpacked :=
  let size := c.len + terminator.length
  if !buffer then ⟨.ok (), size, 0, some []⟩
  else if size < c.len + terminator.length then ⟨.error .einval, size, 0, some []⟩
  else ⟨.ok (), size, c.len + terminator.length, (c.read cfg).map (· ++ terminator)⟩

/-- `qm_tlv_unpack_bytes`. -/
def unpackBytes : Config → Cell → Bool → Nat → Unpacked := unpackInto []

/-- `qm_tlv_unpack_string`. -/
def unpackString : Config → Cell → Bool → Nat → Unpacked := unpackInto [0]

/-! ### What the block holds -/

/-- The block has the value, where `len` says, and can give it. -/
structure Cell.Holds (cfg : Config) (c : Cell) (value : Bytes) : Prop where
  len : c.len = value.length
  read : c.read cfg = some value

/-- The member that was written last is the one `len` says, but for a null pointer, and every
allocation was released once or is the one the block has. -/
structure Cell.Sound (cfg : Config) (c : Cell) : Prop where
  inside : ∀ known, c.value = .bytes known → c.len ≤ cfg.bufSize
  outside : ∀ p data, c.value = .pdata (some (p, data)) → cfg.bufSize < c.len
  released : (c.freed ++ c.value.live).Perm (List.range c.allocated)

/-- The build and the block take the pack as it is meant: its size fits `len`, a number fits the
block, and a float does not go over a value on the heap. -/
structure Storable (cfg : Config) (c : Cell) (e : Pack) : Prop where
  nonempty : e.image ≠ []
  size : e.image.length < cfg.lengthByte.limit
  number : e.isNumber = true → e.image.length ≤ cfg.bufSize
  float : e.isFloat = true → c.len ≤ cfg.bufSize

instance (cfg : Config) (c : Cell) (e : Pack) : Decidable (Storable cfg c e) :=
  decidable_of_iff (e.image ≠ [] ∧ e.image.length < cfg.lengthByte.limit ∧
      (e.isNumber = true → e.image.length ≤ cfg.bufSize) ∧ (e.isFloat = true → c.len ≤ cfg.bufSize))
    ⟨fun h => ⟨h.1, h.2.1, h.2.2.1, h.2.2.2⟩, fun h => ⟨h.nonempty, h.size, h.number, h.float⟩⟩

section Packing
variable {cfg : Config} {c c' : Cell} {value : Bytes}

theorem Cell.creat_sound (cfg : Config) : (Cell.creat cfg).Sound cfg :=
  ⟨fun _ _ => Nat.zero_le _, fun _ _ h => (by cases h), .refl _⟩

theorem Cell.holds_inside {rest : Bytes} (hlen : c.len = value.length) (hvalue : c.value = .bytes (value ++ rest))
    (hfits : value.length ≤ cfg.bufSize) : c.Holds cfg value := by
  refine ⟨hlen, ?_⟩
  simp [Cell.read, hlen, hvalue, hfits]

theorem Cell.holds_outside {p : Nat} (hlen : c.len = value.length) (hvalue : c.value = .pdata (some (p, value)))
    (hlong : ¬ value.length ≤ cfg.bufSize) : c.Holds cfg value := by
  refine ⟨hlen, ?_⟩
  simp [Cell.read, hlen, hvalue, hlong]

theorem Cell.Sound.none_live (h : c.Sound cfg) (hlive : c.value.live = []) :
    c.freed.Perm (List.range c.allocated) := by
  have hreleased := h.released
  rwa [hlive, append_nil] at hreleased

theorem Cell.Sound.live_of_short (h : c.Sound cfg) (hshort : c.len ≤ cfg.bufSize) : c.value.live = [] := by
  cases hvalue : c.value with
  | bytes known => rfl
  | pdata p =>
    cases p with
    | none => rfl
    | some p => exact absurd (h.outside p.1 p.2 hvalue) (Nat.not_lt.mpr hshort)

/-- Releasing leaves nothing on the heap. -/
theorem Cell.Sound.release (h : c.Sound cfg) :
    ∃ c', c.release cfg = some c' ∧ c'.freed.Perm (List.range c'.allocated) := by
  unfold Cell.release
  split
  · next hlong =>
    cases hvalue : c.value with
    | bytes known => exact absurd (h.inside known hvalue) (Nat.not_le.mpr hlong)
    | pdata p =>
      cases p with
      | none => exact ⟨c, rfl, h.none_live (by rw [hvalue]; rfl)⟩
      | some p =>
        have hreleased := h.released
        rw [hvalue] at hreleased
        exact ⟨_, rfl, hreleased⟩
  · next hshort => exact ⟨c, rfl, h.none_live (h.live_of_short (Nat.not_lt.mp hshort))⟩

theorem Cell.sound_inside {known : Bytes} {len : Nat} (h : c.freed.Perm (List.range c.allocated))
    (hlen : len ≤ cfg.bufSize) : ({ c with len := len, value := .bytes known } : Cell).Sound cfg :=
  ⟨fun _ _ => hlen, fun _ _ hvalue => (by cases hvalue), by simpa [Held.live] using h⟩

theorem Cell.number_sound {image : Bytes} (h : c.freed.Perm (List.range c.allocated))
    (hfits : image.length ≤ cfg.bufSize) : (c.number cfg image).Sound cfg ∧ (c.number cfg image).Holds cfg image :=
  ⟨Cell.sound_inside h hfits, Cell.holds_inside rfl rfl hfits⟩

/-- A string of bytes is in the block afterwards or on the heap, or there was no memory for it. -/
theorem Cell.Sound.packed (h : c.Sound cfg) {b : Bytes} (mem : Bool) (hne : b ≠ [])
    (hsize : b.length < cfg.lengthByte.limit) :
    ∃ c' ret, Cell.pack.packed cfg c b mem = some (c', ret) ∧ c'.Sound cfg ∧ (ret = .ok () → c'.Holds cfg b) := by
  obtain ⟨c₁, hrelease, hfreed⟩ := h.release
  have hlen : b.length % cfg.lengthByte.limit = b.length := Nat.mod_eq_of_lt hsize
  have h0 : b.length ≠ 0 := fun h0 => hne (length_eq_zero_iff.mp h0)
  simp only [Cell.pack.packed, if_neg h0, hrelease, hlen, Option.bind_eq_bind, Option.bind_some, Option.pure_def]
  by_cases hfits : b.length ≤ cfg.bufSize
  · rw [if_pos hfits]
    exact ⟨_, _, rfl, Cell.sound_inside hfreed hfits, fun _ => Cell.holds_inside rfl rfl hfits⟩
  · rw [if_neg hfits]
    cases mem with
    | true =>
      refine ⟨_, _, rfl, ⟨fun _ hvalue => (by cases hvalue), fun _ _ _ => Nat.not_le.mp hfits, ?_⟩, fun _ => ?_⟩
      · rw [range_succ]
        exact hfreed.append_right _
      · exact Cell.holds_outside rfl rfl hfits
    | false =>
      refine ⟨_, _, rfl, ⟨fun _ hvalue => (by cases hvalue), fun _ _ hvalue => (by cases hvalue), ?_⟩,
        fun hok => by cases hok⟩
      simpa [Held.live] using hfreed

/-- One pack: it succeeds and the block holds what it was given, or there was no memory. -/
theorem Cell.Sound.pack (h : c.Sound cfg) {e : Pack} (he : Storable cfg c e) :
    ∃ c' ret, c.pack cfg e = some (c', ret) ∧ c'.Sound cfg ∧ (ret = .ok () → c'.Holds cfg e.image) := by
  obtain ⟨c₁, hrelease, hfreed⟩ := h.release
  cases e with
  | uint8 v =>
    have hfits : 1 ≤ cfg.bufSize := he.number rfl
    refine ⟨_, _, by rw [Cell.pack, hrelease]; rfl, Cell.sound_inside hfreed hfits, fun _ => ?_⟩
    exact Cell.holds_inside rfl rfl hfits
  | uint16 v =>
    have hnumber := Cell.number_sound hfreed (he.number rfl)
    exact ⟨_, _, by rw [Cell.pack, hrelease]; rfl, hnumber.1, fun _ => hnumber.2⟩
  | uint32 v =>
    have hnumber := Cell.number_sound hfreed (he.number rfl)
    exact ⟨_, _, by rw [Cell.pack, hrelease]; rfl, hnumber.1, fun _ => hnumber.2⟩
  | float32 a b d f =>
    -- nothing is released, so nothing may be on the heap
    have hlive := h.none_live (h.live_of_short (he.float rfl))
    have hnumber := Cell.number_sound hlive (he.number rfl)
    exact ⟨_, _, rfl, hnumber.1, fun _ => hnumber.2⟩
  | bytes b mem => exact h.packed mem he.nonempty he.size
  | string b mem => exact h.packed mem he.nonempty he.size

theorem Cell.Sound.delete (h : c.Sound cfg) : ∃ freed, c.delete cfg = some freed ∧ freed.Perm (List.range c.allocated) := by
  unfold Cell.delete
  split
  · next hlong =>
    cases hvalue : c.value with
    | bytes known => exact absurd (h.inside known hvalue) (Nat.not_le.mpr hlong)
    | pdata p =>
      cases p with
      | none => exact ⟨_, rfl, h.none_live (by rw [hvalue]; rfl)⟩
      | some p =>
        have hreleased := h.released
        rw [hvalue] at hreleased
        exact ⟨_, rfl, hreleased⟩
  · next hshort => exact ⟨_, rfl, h.none_live (h.live_of_short (Nat.not_lt.mp hshort))⟩

end Packing

/-! ### Every run -/

/-- What is unpacked into a buffer of `cap` bytes is the string, and it fits. -/
structure Unpacked.Returns (u : Unpacked) (value : Bytes) (cap : Nat) : Prop where
  ret : u.ret = .ok ()
  size : u.size = value.length
  bytes : u.bytes = some value
  inside : u.written ≤ cap

theorem Cell.Holds.unpackInto {cfg : Config} {c : Cell} {value : Bytes} (h : c.Holds cfg value) (terminator : Bytes)
    {cap : Nat} (hcap : (value ++ terminator).length ≤ cap) :
    (unpackInto terminator cfg c true cap).Returns (value ++ terminator) cap := by
  rw [length_append] at hcap
  simp only [Tlv.unpackInto, Bool.not_true, Bool.false_eq_true, if_false, Nat.lt_irrefl, h.len, h.read, Option.map_some]
  exact ⟨rfl, (length_append).symm, rfl, hcap⟩

/-- Every allocation was released once or is the block's, and all are once it is deleted. -/
structure Cell.ReleasesOnce (cfg : Config) (c : Cell) : Prop where
  sofar : (c.freed ++ c.value.live).Perm (List.range c.allocated)
  inTheEnd : ∃ freed, c.delete cfg = some freed ∧ freed.Perm (List.range c.allocated)

/-- **The value store.** In every build and for every sequence of packs that it and the block
can take, the packs come to their end; if the last one succeeded, a buffer that is large
enough gets what it stored; and every allocation is released exactly once. -/
theorem store_returns_last (cfg : Config) (packs : List Pack)
    (hmeets : (store cfg).Meets (Storable cfg) (Cell.creat cfg) packs) :
    ∃ c trace, (store cfg).run (Cell.creat cfg) packs = some (c, trace) ∧ c.ReleasesOnce cfg ∧
      ∀ before e, trace = before ++ [(e, .ok ())] → ∀ cap,
        (e.image.length ≤ cap → (unpackBytes cfg c true cap).Returns e.image cap) ∧
        (e.image.length + 1 ≤ cap → (unpackString cfg c true cap).Returns (e.image ++ [0]) cap) := by
  obtain ⟨c, trace, hrun, hsound, hholds⟩ := (store cfg).run_total (Storable cfg)
    (fun trace c => c.Sound cfg ∧ ∀ before e, trace = before ++ [(e, .ok ())] → c.Holds cfg e.image)
    (fun past c e h he => by
      obtain ⟨c', ret, hstep, hsound, hholds⟩ := h.1.pack he
      refine ⟨c', ret, hstep, hsound, fun before e' heq => ?_⟩
      obtain ⟨-, hlast⟩ := append_inj' heq rfl
      cases hlast
      exact hholds rfl)
    ⟨Cell.creat_sound cfg, fun before e h => (by simp at h)⟩ hmeets
  refine ⟨c, trace, hrun, ⟨hsound.released, hsound.delete⟩, fun before e hlast cap => ⟨fun hcap => ?_, fun hcap => ?_⟩⟩
  · have hreturns := (hholds before e hlast).unpackInto [] ((append_nil e.image).symm ▸ hcap)
    rwa [append_nil] at hreturns
  · exact (hholds before e hlast).unpackInto [0] (by simpa using hcap)

/-- Values of up to eight bytes in the block, and sizes of one byte. -/
def eightInside : Config where
  tlv := some ⟨.one, .one⟩
  dttv := none
  ttlv := none
  dttvForceUpdate := false
  int16 := true
  int32 := true
  int64 := false
  float32 := true
  float64 := false
  bytes := true
  bufSize := 8

def toAndFro : List Pack :=
  [.uint16 0x0102, .bytes (List.replicate 9 1) true, .string (List.replicate 20 2) true,
    .bytes (List.replicate 30 3) false, .uint32 0x01020304]

theorem store_returns_last_number :
    ∃ c trace, (store eightInside).run (Cell.creat eightInside) toAndFro = some (c, trace) ∧
      c.ReleasesOnce eightInside ∧
      ∀ before e, trace = before ++ [(e, .ok ())] → ∀ cap,
        (e.image.length ≤ cap → (unpackBytes eightInside c true cap).Returns e.image cap) ∧
        (e.image.length + 1 ≤ cap → (unpackString eightInside c true cap).Returns (e.image ++ [0]) cap) :=
  store_returns_last eightInside toAndFro (by decide +kernel)

/-- A float over a value on the heap: the allocation is never released. -/
example : ((store eightInside).run (Cell.creat eightInside)
    [.bytes (List.replicate 9 1) true, .float32 0 0 0 0]).map (fun r => (r.1.allocated, r.1.delete eightInside)) =
      some (1, some []) := by decide

/-- A size of 256 bytes in a `len` of one: the block takes itself for empty. -/
example : ((store eightInside).run (Cell.creat eightInside) [.bytes (List.replicate 256 1) true]).map
    (fun r => (r.1.len, r.1.delete eightInside)) = some (0, some []) := by decide +kernel

/-- Three bytes are unpacked into a buffer of two. -/
theorem unpack_overruns :
    ¬ ∀ (cfg : Config) (packs : List Pack) (c : Cell) (trace : List (Pack × Except Errno Unit)),
      (∀ e ∈ packs, e.image ≠ [] ∧ e.isFloat = false) → (store cfg).run (Cell.creat cfg) packs = some (c, trace) →
      ∀ cap, (unpackBytes cfg c true cap).written ≤ cap := by
  intro h
  have hrun : ((store eightInside).run (Cell.creat eightInside) [.bytes [1, 2, 3] true]).map
      (fun r => (unpackBytes eightInside r.1 true 2).written) = some 3 := by decide
  obtain ⟨⟨c, trace⟩, hr, hwritten⟩ := Option.map_eq_some_iff.mp hrun
  have hle := h eightInside [.bytes [1, 2, 3] true] c trace (by decide) hr 2
  rw [hwritten] at hle
  exact absurd hle (by decide)

end Qumios.Tlv
