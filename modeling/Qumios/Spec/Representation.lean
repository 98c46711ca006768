import Qumios.Lib.Run
import Qumios.Spec.Contents

/-! Sequences of packing, unpacking, copying and deleting.

A program that uses properties should not see where their values are. The machine of the memory is compared with one that
has nothing but contents (`values`): as long as no packed value has just eight bytes, or more than `len` can count, both
show the same along every run, and the memory stays tidy; with the first value that has, it no longer is, or no longer
says what was packed (`represented_iff`). -/
namespace Qumios.Spec.Storage
open Wire Function Run List Option

/-! ### Events -/

/-- What is packed. -/
inductive Packing where
  | bytes (data : Bytes)
  | string (data : Bytes)
  | uint8 (v : UInt8)
  | int8 (v : Int8)
  | uint16 (v : UInt16)
  | int16 (v : Int16)
  | uint32 (v : UInt32)
  | int32 (v : Int32)
  | number (v : Int32)
  | bool (v : UInt8)
  | float32 (b₀ b₁ b₂ b₃ : UInt8)

namespace Packing

/-- The bytes of the value. -/
def data : Packing → Bytes
  | bytes data => data
  | string data => data
  | uint8 v => [v]
  | int8 v => [v.toUInt8]
  | uint16 v => Width.two.put v.toNat
  | int16 v => Width.two.put v.toUInt16.toNat
  | uint32 v => Width.two.put (v.toNat / 65536) ++ Width.two.put (v.toNat % 65536)
  | int32 v => Width.two.put (v.toUInt32.toNat / 65536) ++ Width.two.put (v.toUInt32.toNat % 65536)
  | number v => Width.two.put (v.toUInt32.toNat / 65536) ++ Width.two.put (v.toUInt32.toNat % 65536)
  | bool v => [v]
  | float32 b₀ b₁ b₂ b₃ => [b₀, b₁, b₂, b₃]

/-- The format it leaves. -/
def format (old : UInt8) : Packing → UInt8
  | bytes _ => old
  | string _ => 11
  | uint8 _ => 2
  | int8 _ => 1
  | uint16 _ => 4
  | int16 _ => 3
  | uint32 _ => 6
  | int32 _ => 5
  | number _ => 25
  | bool _ => 0
  | float32 .. => 9

def Fits (v : Packing) : Prop := v.data.length ≠ buffSize ∧ v.data.length < 65536

end Packing

def Memory.pack (address : Nat → Raw) (m : Memory) (p : Nat) : Packing → Option Memory
  | .bytes data => m.packBytes p data
  | .string data => m.packString p data
  | .uint8 v => m.packUint8 address p v
  | .int8 v => m.packInt8 address p v
  | .uint16 v => m.packUint16 p v
  | .int16 v => m.packInt16 p v
  | .uint32 v => m.packUint32 p v
  | .int32 v => m.packInt32 p v
  | .number v => m.packNumber p v
  | .bool v => m.packBool address p v
  | .float32 b₀ b₁ b₂ b₃ => m.packFloat32 p b₀ b₁ b₂ b₃

inductive Event where
  | create
  | pack (p : Nat) (v : Packing)
  | unpackBytes (p : Nat)
  | unpackString (p : Nat)
  | unpackBytesDirect (p : Nat)
  | copy (d s : Nat)
  | delete (p : Nat)

namespace Event

/-- The properties that the event is about. -/
def handles : Event → List Nat
  | create => []
  | pack p _ => [p]
  | unpackBytes p => [p]
  | unpackString p => [p]
  | unpackBytesDirect p => [p]
  | copy d s => [d, s]
  | delete p => [p]

def Named (m : Memory) (e : Event) : Prop := ∀ p ∈ e.handles, (m.cells p).isSome

def Fits : Event → Prop
  | pack _ v => v.Fits
  | _ => True

instance (m : Memory) : DecidablePred (Named m) := fun e =>
  inferInstanceAs (Decidable (∀ p ∈ e.handles, (m.cells p).isSome))

instance : DecidablePred Fits
  | pack _ v => inferInstanceAs (Decidable (v.data.length ≠ buffSize ∧ v.data.length < 65536))
  | create => inferInstanceAs (Decidable True)
  | unpackBytes _ => inferInstanceAs (Decidable True)
  | unpackString _ => inferInstanceAs (Decidable True)
  | unpackBytesDirect _ => inferInstanceAs (Decidable True)
  | copy _ _ => inferInstanceAs (Decidable True)
  | delete _ => inferInstanceAs (Decidable True)

end Event

inductive Output where
  | done
  | value (bytes : Bytes)
  deriving DecidableEq

/-- The functions, on the memory. -/
def machine (address : Nat → Raw) : Machine Memory Event Output where
  step m
    | .create => some (m.create, .done)
    | .pack p v => (m.pack address p v).map fun m' => (m', .done)
    | .unpackBytes p => ((m.cells p).bind (·.unpackBytes address m.blocks)).map fun bytes => (m, .value bytes)
    | .unpackString p => ((m.cells p).bind (·.unpackString address m.blocks)).map fun bytes => (m, .value bytes)
    | .unpackBytesDirect p =>
      ((m.cells p).bind (·.unpackBytesDirect address m.blocks)).map fun bytes => (m, .value bytes)
    | .copy d s => (m.copy address d s).map fun m' => (m', .done)
    | .delete p => (m.delete p).map fun m' => (m', .done)

/-! ### Contents alone -/

structure Values where
  next : Nat
  contents : Nat → Option Content

def Content.packs (x : Content) (v : Packing) : Content := { x.pack v.data with format := v.format x.format }

/-- What the functions are for: a value is what was packed last, or what the source of a copy had. -/
def values : Machine Values Event Output where
  step x
    | .create => some (⟨x.next + 1, update x.contents x.next (some .zero)⟩, .done)
    | .pack p v => (x.contents p).map fun c => ({ x with contents := update x.contents p (some (c.packs v)) }, .done)
    | .unpackBytes p => (x.contents p).map fun c => (x, .value c.value)
    | .unpackString p => (x.contents p).map fun c => (x, .value (c.value ++ [0]))
    | .unpackBytesDirect p => (x.contents p).map fun c => (x, .value c.value)
    | .copy d s =>
      (x.contents d).bind fun c => (x.contents s).map fun c' =>
        ({ x with contents := update x.contents d (some (c.copy c')) }, .done)
    | .delete p => (x.contents p).map fun _ => ({ x with contents := update x.contents p none }, .done)

/-! ### One event -/

section

variable {address : Nat → Raw} {m : Memory} {p : Nat} {x : Content}

theorem Sets.weaken {m' : Memory} {y : Option Content} {fits fits' : Prop} (h : Sets address m p y fits m')
    (himp : fits' → fits) : Sets address m p y fits' m' :=
  ⟨h.safe, h.next, h.content, fun htidy hfit => h.tidy htidy (himp hfit)⟩

theorem Sets.formatted {r : Option Memory} {fits : Prop} (h : ∃ m', r = some m' ∧ Sets address m p (some x) fits m')
    (format : UInt8) : ∃ m', r.map (·.setFormat p format) = some m' ∧
      Sets address m p (some { x with format := format }) fits m' := by
  obtain ⟨m', rfl, hsets⟩ := h
  have hx : m'.content address p = some x := by rw [hsets.content, update_self]
  refine ⟨m'.setFormat p format, rfl, ?_⟩
  exact (hsets.trans (Memory.setFormat_sets hsets.safe hx format)).weaken fun hfit => ⟨hfit, trivial⟩

theorem prefix_ofBytes {data : Bytes} (h : data.length < buffSize) : data <+: (Raw.ofBytes data).val := by
  refine prefix_iff_eq_take.mpr ?_
  rw [Raw.ofBytes, take_take, Nat.min_eq_left (Nat.le_of_lt h), take_left]

section
variable (hsafe : Safe m) (hx : m.content address p = some x)
include hsafe hx

theorem number_sets (format : UInt8) (len : UInt16) (raw : Cell → Raw) (data : Bytes)
    (hlen : data.length = len.toNat) (hsize : 0 < len.toNat ∧ len.toNat < buffSize)
    (hraw : ∀ c, data <+: (raw c).val) (fits : Prop) :
    ∃ m', m.packInPlace p format len raw = some m' ∧
      Sets address m p (some { x.pack data with format := format }) fits m' := by
  obtain ⟨m', hm', hsets⟩ := Memory.packInPlace_sets hsafe hx format hlen.symm (hlen ▸ hsize.2) hraw
  rw [Content.pack, if_neg (length_pos_iff.mp (hlen ▸ hsize.1))]
  exact ⟨m', hm', hsets.weaken fun _ => trivial⟩

theorem uint8_sets (v : UInt8) (fits : Prop) :
    ∃ m', m.packUint8 address p v = some m' ∧ Sets address m p (some { x.pack [v] with format := 2 }) fits m' :=
  number_sets hsafe hx 2 1 _ [v] rfl (by decide) (fun _ => ⟨_, rfl⟩) fits

theorem cleared_sets (format : UInt8) (len : UInt16) (data : Bytes) (hlen : data.length = len.toNat)
    (hsize : 0 < len.toNat ∧ len.toNat < buffSize) (fits : Prop) :
    ∃ m', m.packInPlace p format len (fun _ => .ofBytes data) = some m' ∧
      Sets address m p (some { x.pack data with format := format }) fits m' :=
  number_sets hsafe hx format len _ data hlen hsize (fun _ => prefix_ofBytes (hlen ▸ hsize.2)) fits

theorem uint16_sets (v : UInt16) (fits : Prop) :
    ∃ m', m.packUint16 p v = some m' ∧
      Sets address m p (some { x.pack (Width.two.put v.toNat) with format := 4 }) fits m' :=
  cleared_sets hsafe hx 4 2 _ rfl (by decide) fits

theorem uint32_sets (v : UInt32) (fits : Prop) :
    ∃ m', m.packUint32 p v = some m' ∧ Sets address m p (some { x.pack
      (Width.two.put (v.toNat / 65536) ++ Width.two.put (v.toNat % 65536)) with format := 6 }) fits m' :=
  cleared_sets hsafe hx 6 4 _ rfl (by decide) fits

theorem pack_sets (v : Packing) (hcount : v.data.length < 65536) :
    ∃ m', m.pack address p v = some m' ∧ Sets address m p (some (x.packs v)) (v.data.length ≠ buffSize) m' := by
  cases v with
  | bytes data => exact Memory.packBytes_sets hsafe hx data hcount
  | string data => exact Sets.formatted (Memory.packBytes_sets hsafe hx data hcount) 11
  | uint8 v => exact uint8_sets hsafe hx v _
  | int8 v => exact Sets.formatted (uint8_sets hsafe hx v.toUInt8 _) 1
  | uint16 v => exact uint16_sets hsafe hx v _
  | int16 v => exact Sets.formatted (uint16_sets hsafe hx v.toUInt16 _) 3
  | uint32 v => exact uint32_sets hsafe hx v _
  | int32 v => exact Sets.formatted (uint32_sets hsafe hx v.toUInt32 _) 5
  | number v => exact Sets.formatted (Sets.formatted (uint32_sets hsafe hx v.toUInt32 _) 5) 25
  | bool v => exact Sets.formatted (uint8_sets hsafe hx v _) 0
  | float32 b₀ b₁ b₂ b₃ =>
    exact cleared_sets hsafe hx 9 4 [b₀, b₁, b₂, b₃] rfl (by decide) _

end

/-- The memory says what the contents say. -/
structure Represents (address : Nat → Raw) (m : Memory) (x : Values) : Prop where
  safe : Safe m
  tidy : Tidy m
  next : m.next = x.next
  contents : m.content address = x.contents

theorem represents_empty (address : Nat → Raw) : Represents address .empty ⟨0, fun _ => none⟩ :=
  ⟨safe_empty, tidy_empty, rfl, rfl⟩

namespace Represents

variable {x : Values}

section
variable (h : Represents address m x)
include h

theorem named (hp : (m.cells p).isSome) :
    ∃ c y, m.cells p = some c ∧ c.unpackBytesDirect address m.blocks = some y.value ∧
      m.content address p = some y ∧ x.contents p = some y := by
  obtain ⟨c, hc⟩ := isSome_iff_exists.mp hp
  obtain ⟨value, hvalue, _⟩ := (h.safe.stored p c hc).direct address
  have hy : m.content address p = some (c.withValue value) := Memory.content_eq_some.mpr ⟨c, value, hc, hvalue, rfl⟩
  exact ⟨c, c.withValue value, hc, hvalue, hy, h.contents ▸ hy⟩

theorem set {m' : Memory} {y : Option Content} {fits : Prop} (hsets : Sets address m p y fits m') (hfits : fits) :
    Represents address m' { x with contents := update x.contents p y } :=
  ⟨hsets.safe, hsets.tidy h.tidy hfits, hsets.next.trans h.next, by rw [hsets.content, h.contents]⟩

/-- One event: both show the same. -/
theorem step {e : Event} (hnamed : e.Named m) (hfits : e.Fits) :
    ∃ m' x' o, (machine address).step m e = some (m', o) ∧ values.step x e = some (x', o) ∧ Represents address m' x' := by
  cases e with
  | create =>
    refine ⟨_, _, _, rfl, rfl, Memory.create_safe h.safe, Memory.create_tidy h.tidy, congrArg (· + 1) h.next, ?_⟩
    rw [Memory.create_content, h.contents, h.next]
  | pack p v =>
    obtain ⟨_, y, _, _, hy, hxy⟩ := h.named (hnamed p (mem_singleton_self p))
    obtain ⟨m', hm', hsets⟩ := pack_sets h.safe hy v hfits.2
    exact ⟨m', _, .done, by simp only [machine, hm', map_some], by simp only [values, hxy, map_some],
      h.set hsets hfits.1⟩
  | unpackBytes p =>
    obtain ⟨c, y, hc, hvalue, _, hxy⟩ := h.named (hnamed p (mem_singleton_self p))
    have hread : c.unpackBytes address m.blocks = some y.value := by
      rw [← hvalue]
      exact (h.tidy.agreed p c hc).unpackBytes_eq m.blocks
    exact ⟨m, x, .value y.value, by simp only [machine, hc, bind_some, hread, map_some],
      by simp only [values, hxy, map_some], h⟩
  | unpackString p =>
    obtain ⟨c, y, hc, hvalue, _, hxy⟩ := h.named (hnamed p (mem_singleton_self p))
    exact ⟨m, x, .value (y.value ++ [0]),
      by simp only [machine, hc, bind_some, Cell.unpackString, hvalue, map_some],
      by simp only [values, hxy, map_some], h⟩
  | unpackBytesDirect p =>
    obtain ⟨c, y, hc, hvalue, _, hxy⟩ := h.named (hnamed p (mem_singleton_self p))
    exact ⟨m, x, .value y.value, by simp only [machine, hc, bind_some, hvalue, map_some],
      by simp only [values, hxy, map_some], h⟩
  | copy d s =>
    obtain ⟨_, y, _, _, hy, hxy⟩ := h.named (hnamed d (mem_cons_self ..))
    obtain ⟨_, z, _, _, hz, hxz⟩ := h.named (hnamed s (mem_cons_of_mem _ (mem_singleton_self s)))
    obtain ⟨m', hm', hsets⟩ := Memory.copy_sets h.safe hy hz
    exact ⟨m', _, .done, by simp only [machine, hm', map_some],
      by simp only [values, hxy, hxz, bind_some, map_some], h.set hsets trivial⟩
  | delete p =>
    obtain ⟨_, y, _, _, hy, hxy⟩ := h.named (hnamed p (mem_singleton_self p))
    obtain ⟨m', hm', hsets⟩ := Memory.delete_sets h.safe hy
    exact ⟨m', _, .done, by simp only [machine, hm', map_some], by simp only [values, hxy, map_some],
      h.set hsets trivial⟩
end

end Represents

end

/-! ### Runs -/

/-- The run comes through, so nothing was freed twice or read through what is no pointer; it shows what the contents
show, and in the end the memory says what they say: functions agree on where values are, and the blocks that are not
freed belong to one property each. -/
def Represented (address : Nat → Raw) (events : List Event) : Prop :=
  ∃ t y trace, (machine address).run .empty events = some (t, trace) ∧
    values.run ⟨0, fun _ => none⟩ events = some (y, trace) ∧ Represents address t y

variable {address : Nat → Raw}

theorem represented_of_fits {events : List Event} (hnamed : (machine address).Meets Event.Named .empty events)
    (hfits : ∀ e ∈ events, e.Fits) : Represented address events := by
  have hboth := (machine address).meets_and hfits hnamed
  exact Machine.run_refines (machine address) values (fun m e => e.Fits ∧ e.Named m) (Represents address)
    (fun m x e h hc => h.step hc.2 hc.1) (represents_empty address) hboth

theorem values_packed {x y : Values} {past : List Event} {p : Nat} {v : Packing} {trace : List (Event × Output)}
    (h : values.run x (past ++ [.pack p v]) = some (y, trace)) :
    ∃ c : Content, y.contents p = some (c.packs v) := by
  obtain ⟨u, _, _, _, hlast, _⟩ := values.run_append_eq_some.mp h
  obtain ⟨_, _, _, hstep, hend, _⟩ := values.run_cons_eq_some.mp hlast
  obtain ⟨c, _, hc⟩ := map_eq_some_iff.mp hstep
  cases hend
  obtain ⟨rfl, _⟩ := Prod.mk.inj hc
  exact ⟨c, update_self ..⟩

theorem Represents.fits {m : Memory} {x : Values} (h : Represents address m x) {p : Nat} {y : Content}
    (hy : x.contents p = some y) : y.value.length ≠ buffSize ∧ y.value.length < 65536 := by
  obtain ⟨c, value, hc, hvalue, rfl⟩ := Memory.content_eq_some.mp ((congrFun h.contents p).trans hy)
  obtain ⟨value', hvalue', hlen⟩ := (h.safe.stored p c hc).direct address
  obtain rfl : value = value' := Option.some.inj (hvalue.symm.trans hvalue')
  have hcount : (c.withValue value).value.length = c.len.toNat := hlen
  exact ⟨hcount ▸ (h.tidy.agreed p c hc).ne_size, hcount ▸ c.len.toNat_lt⟩

/-- **The representation of values.** Along a run on properties that exist, the memory says at every point what was
packed, exactly if no packed value has eight bytes, or 65536 and more. -/
theorem represented_iff {address : Nat → Raw} {events : List Event}
    (hnamed : (machine address).Meets Event.Named .empty events) :
    (∀ past, past <+: events → Represented address past) ↔ ∀ e ∈ events, e.Fits := by
  constructor
  · intro h e he
    cases e with
    | pack p v =>
      obtain ⟨past, rest, rfl⟩ := append_of_mem he
      obtain ⟨t, y, trace, _, hvalues, hrep⟩ := h (past ++ [.pack p v]) ⟨rest, by simp⟩
      obtain ⟨c, hc⟩ := values_packed hvalues
      by_cases hempty : v.data = []
      · refine ⟨?_, ?_⟩ <;> rw [hempty] <;> decide
      · have hvalue : (c.packs v).value = v.data := if_neg hempty
        have hfits := hrep.fits hc
        rw [hvalue] at hfits
        exact hfits
    | create => trivial
    | unpackBytes p => trivial
    | unpackString p => trivial
    | unpackBytesDirect p => trivial
    | copy d s => trivial
    | delete p => trivial
  · rintro hfits past ⟨rest, rfl⟩
    exact represented_of_fits ((machine address).meets_of_append hnamed) fun e he =>
      hfits e (mem_append_left _ he)

def longValue : List Event :=
  [.create, .create, .pack 0 (.string [1, 2, 3, 4, 5, 6, 7, 8, 9]), .copy 1 0, .pack 0 (.uint16 258), .unpackBytes 1,
    .delete 1, .delete 0]

theorem represented_long : Represented (fun _ => .ofBytes []) longValue :=
  (represented_iff (by decide)).mpr (by decide) longValue (prefix_refl _)

def eightBytes : List Event := [.create, .pack 0 (.bytes [1, 2, 3, 4, 5, 6, 7, 8]), .unpackBytes 0]

def shown {σ : Type} (r : Option (σ × List (Event × Output))) : Option (List Output) := r.map fun r => r.2.map Prod.snd

/-- Where eight bytes were packed, those of the pointer are read. -/
theorem eight_bytes_not_represented :
    ¬ ∀ address events, (machine address).Meets Event.Named .empty events → Represented address events := by
  intro h
  obtain ⟨t, y, trace, hmachine, hvalues, _⟩ := h (fun _ => .ofBytes []) eightBytes (by decide)
  have hpointer : shown ((machine fun _ => .ofBytes []).run .empty eightBytes) =
      some [.done, .done, .value [0, 0, 0, 0, 0, 0, 0, 0]] := by decide
  have hpacked : shown (values.run ⟨0, fun _ => none⟩ eightBytes) =
      some [.done, .done, .value [1, 2, 3, 4, 5, 6, 7, 8]] := by decide
  rw [hmachine] at hpointer
  rw [hvalues] at hpacked
  have hsame : shown (some (t, trace)) = shown (some (y, trace)) := rfl
  rw [hpointer, hpacked] at hsame
  exact absurd hsame (by decide)

end Qumios.Spec.Storage
