import Qumios.EventBus.Circbuf
import Qumios.Lib.Run

/-! The queue of the event bus as a queue of byte strings.

`Fifo` is what the ring is for: strings in the order they were pushed, each of them
charged one byte more than it has. The ring follows it through every sequence of calls
in which the caller of a pop has room for the element; a pop that has not leaves the
read index inside the element. -/
namespace Qumios.EventBus
open Run RingBuffer

instance (data : Bytes) : Decidable (Fits data) :=
  inferInstanceAs (Decidable (0 < data.length ∧ data.length < 256))

/-- An element to be pushed. -/
structure Elem where
  data : Bytes
  fits : Fits data

inductive QueueOp where
  | push (elem : Elem)
  /-- Into a buffer of `size` bytes. -/
  | pop (size : Nat)
  | peek (size : Nat)
  | drop
  | elemCounts
  | freeSpace

inductive Reply where
  | ok
  | error
  | data (bytes : Bytes)
  | number (n : Nat)
  deriving DecidableEq, Repr

namespace Circbuf

/-- `circbuf_var_pop` without `read_only`; no build defines `CRICBUF_CLEAN_ON_POP`. -/
def popElem (cb : Circbuf) (size : Nat) : Option (Bytes × Circbuf) :=
  if cb.size = 0 ∨ cb.elemCnt = 0 then none
  else
    match cb.buffer[cb.popIndex]? with
    | none => none
    | some elemSize =>
      let popSize := min size elemSize.toNat
      some (read cb.buffer ((cb.popIndex + 1) % cb.size) popSize,
        { cb with popIndex := ((cb.popIndex + 1) % cb.size + popSize) % cb.size, elemCnt := cb.elemCnt - 1 })

def step (cb : Circbuf) : QueueOp → Circbuf × Reply
  | .push elem =>
    match cb.pushElem elem.data (UInt8.ofNat elem.data.length) with
    | none => (cb, .error)
    | some cb' => (cb', .ok)
  | .pop size =>
    match cb.popElem size with
    | none => (cb, .error)
    | some (bytes, cb') => (cb', .data bytes)
  | .peek size =>
    match cb.pop size with
    | none => (cb, .error)
    | some bytes => (cb, .data bytes)
  | .drop => if cb.elemCnt = 0 ∨ cb.size = 0 then (cb, .error) else (cb.dropCurElem, .ok)
  | .elemCounts => (cb, .number cb.elemCnt)
  | .freeSpace => (cb, .number cb.freeSpace)

def machine : Machine Circbuf QueueOp Reply where
  step cb op := some (cb.step op)

end Circbuf

/-! ### The queue that is meant -/

namespace Fifo

/-- The bytes that are left of a buffer of `size`; one of them is never used. -/
def free (size : Nat) (elems : List Bytes) : Nat := size - 1 - (elems.map fun e => e.length + 1).sum

def step (size : Nat) (elems : List Bytes) : QueueOp → List Bytes × Reply
  | .push elem => if elem.data.length + 1 ≤ free size elems then (elems ++ [elem.data], .ok) else (elems, .error)
  | .pop n =>
    match elems with
    | [] => ([], .error)
    | e :: rest => (rest, .data (e.take n))
  | .peek n =>
    match elems with
    | [] => ([], .error)
    | e :: rest => (e :: rest, .data (e.take n))
  | .drop =>
    match elems with
    | [] => ([], .error)
    | _ :: rest => (rest, .ok)
  | .elemCounts => (elems, .number elems.length)
  | .freeSpace => (elems, .number (free size elems))

def machine (size : Nat) : Machine (List Bytes) QueueOp Reply where
  step elems op := some (step size elems op)

end Fifo

/-! ### The ring follows it -/

def HasRoom (cb : Circbuf) : QueueOp → Prop
  | .pop size => ∀ header ∈ cb.buffer[cb.popIndex]?, header.toNat ≤ size
  | _ => True

instance (cb : Circbuf) : DecidablePred (HasRoom cb)
  | .pop size => inferInstanceAs (Decidable (∀ header ∈ cb.buffer[cb.popIndex]?, header.toNat ≤ size))
  | .push _ => isTrue trivial
  | .peek _ => isTrue trivial
  | .drop => isTrue trivial
  | .elemCounts => isTrue trivial
  | .freeSpace => isTrue trivial

section Follows
variable {cb : Circbuf} {elems : List Bytes} {size : Nat}

theorem length_wire (elems : List Bytes) : (wire elems).length = (elems.map fun e => e.length + 1).sum := by
  induction elems with
  | nil => rfl
  | cons e rest ih =>
    show (element e ++ wire rest).length = _
    rw [List.length_append, length_element, ih, List.map_cons, List.sum_cons]

theorem Lined.freeSpace_eq (h : Lined cb elems) : cb.freeSpace = Fifo.free cb.size elems := by
  rw [h.free, Fifo.free, length_wire]
  omega

theorem pushElem_size {cb' : Circbuf} {elem : Bytes} {size : UInt8} (h : cb.pushElem elem size = some cb') :
    cb'.size = cb.size := by
  rw [Circbuf.pushElem] at h
  split at h
  · cases h
  · split at h
    · cases h
    · cases h
      exact length_write ..

/-- A push succeeds if the element fits into what is left. -/
theorem Lined.pushElem_isSome (h : Lined cb elems) (elem : Elem) :
    (cb.pushElem elem.data (UInt8.ofNat elem.data.length)).isSome ↔ elem.data.length + 1 ≤ Fifo.free cb.size elems := by
  have hheader := elem.fits.header
  have hsize : UInt8.ofNat elem.data.length ≠ 0 := by
    intro hzero
    rw [hzero] at hheader
    exact Nat.ne_of_gt elem.fits.1 hheader.symm
  have hpos : cb.size ≠ 0 := Nat.ne_zero_of_lt h.room
  rw [Circbuf.pushElem, if_neg (not_or.mpr ⟨hsize, hpos⟩), h.freeSpace_eq, hheader]
  split
  · simp only [Option.isSome_none, Bool.false_eq_true, false_iff]
    omega
  · simp only [Option.isSome_some, true_iff]
    omega

theorem popElem_eq {header : UInt8} (hfront : cb.buffer[cb.popIndex]? = some header) (hroom : header.toNat ≤ size) :
    cb.popElem size = (cb.pop size).map fun bytes => (bytes, cb.dropCurElem) := by
  rw [Circbuf.popElem, Circbuf.pop, Circbuf.dropCurElem]
  by_cases hne : cb.size = 0 ∨ cb.elemCnt = 0
  · simp only [if_pos hne, Option.map_none]
  · simp only [if_neg hne, if_neg (mt Or.symm hne), hfront, Option.map_some, Nat.min_eq_right hroom]
    rw [Nat.mod_add_mod, Nat.add_right_comm cb.popIndex 1]

theorem size_dropCurElem (cb : Circbuf) : cb.dropCurElem.size = cb.size := by
  rw [Circbuf.dropCurElem]
  split
  · rfl
  · split <;> rfl

theorem Queues.lined_of_size (h : Queues cb elems) (hpos : cb.size ≠ 0) : Lined cb elems :=
  h.resolve_left fun hzero => hpos hzero.1

theorem Lined.dropCurElem {data : Bytes} (h : Lined cb (data :: elems)) : Lined cb.dropCurElem elems :=
  (Queues.dropCurElem (.inr h)).lined_of_size
    (by rw [size_dropCurElem]; exact Nat.ne_zero_of_lt h.room)

theorem Lined.step_empty (h : Lined cb []) : (∀ n, cb.popElem n = none) ∧ (∀ n, cb.pop n = none) ∧ cb.elemCnt = 0 := by
  have hcount : cb.elemCnt = 0 := h.count
  refine ⟨fun n => ?_, fun n => ?_, hcount⟩
  · rw [Circbuf.popElem, if_pos (.inr hcount)]
  · rw [Circbuf.pop, if_pos (.inr hcount)]

/-- **One call**: the ring answers as the queue does. -/
theorem Lined.step (h : Lined cb elems) (op : QueueOp) (hc : HasRoom cb op) :
    (cb.step op).2 = (Fifo.step cb.size elems op).2 ∧ (cb.step op).1.size = cb.size ∧
      Lined (cb.step op).1 (Fifo.step cb.size elems op).1 := by
  have hsize : cb.size ≠ 0 := Nat.ne_zero_of_lt h.room
  cases op with
  | push elem =>
    have hiff := h.pushElem_isSome elem
    rw [Circbuf.step, Fifo.step]
    cases hpush : cb.pushElem elem.data (UInt8.ofNat elem.data.length) with
    | none =>
      rw [hpush] at hiff
      rw [if_neg (fun hroom => Bool.false_ne_true (hiff.mpr hroom))]
      exact ⟨rfl, rfl, h⟩
    | some cb' =>
      rw [hpush] at hiff
      rw [if_pos (hiff.mp rfl)]
      have hsize' : cb'.size = cb.size := pushElem_size hpush
      have hheader := elem.fits.header
      have hqueues : Queues cb' (elems ++ [elem.data.take (UInt8.ofNat elem.data.length).toNat]) :=
        Queues.pushElem (.inr h) (Nat.le_of_eq hheader) hpush
      rw [hheader, List.take_length] at hqueues
      exact ⟨rfl, hsize', hqueues.lined_of_size (by rw [hsize']; exact hsize)⟩
  | pop n =>
    cases elems with
    | nil =>
      rw [Circbuf.step, h.step_empty.1 n]
      exact ⟨rfl, rfl, h⟩
    | cons e rest =>
      have hroom := hc _ h.front.1
      rw [Circbuf.step, popElem_eq h.front.1 hroom, Queues.pop (.inr h)]
      exact ⟨rfl, size_dropCurElem cb, h.dropCurElem⟩
  | peek n =>
    cases elems with
    | nil =>
      rw [Circbuf.step, h.step_empty.2.1 n]
      exact ⟨rfl, rfl, h⟩
    | cons e rest =>
      rw [Circbuf.step, Queues.pop (.inr h)]
      exact ⟨rfl, rfl, h⟩
  | drop =>
    cases elems with
    | nil =>
      rw [Circbuf.step, if_pos (.inl h.step_empty.2.2)]
      exact ⟨rfl, rfl, h⟩
    | cons e rest =>
      have hcount : cb.elemCnt ≠ 0 := by
        rw [h.count]
        exact Nat.succ_ne_zero _
      rw [Circbuf.step, if_neg (not_or.mpr ⟨hcount, hsize⟩)]
      exact ⟨rfl, size_dropCurElem cb, h.dropCurElem⟩
  | elemCounts => exact ⟨congrArg Reply.number h.count, rfl, h⟩
  | freeSpace => exact ⟨congrArg Reply.number h.freeSpace_eq, rfl, h⟩

end Follows

/-- **The ring is a queue of byte strings.** For every buffer, and every sequence of calls in which
a pop has room for the element, each call answers what the queue answers: the elements come out
in the order they went in, whole or as the beginning the caller has room for, what is refused
changes nothing, and the counts are those of the queue. -/
theorem circbuf_refines_fifo (size : Nat) (hpos : 0 < size) (hfit : size < 65536) (ops : List QueueOp)
    (hm : Circbuf.machine.Meets HasRoom (.init size) ops) :
    ∃ cb elems trace, Circbuf.machine.run (.init size) ops = some (cb, trace) ∧
      (Fifo.machine size).run [] ops = some (elems, trace) ∧ cb.contents = elems := by
  have hinit : (Circbuf.init size).size = size := by
    rw [Circbuf.size, Circbuf.init, List.length_replicate, Nat.mod_eq_of_lt hfit]
  have hstart : (Circbuf.init size).size = size ∧ Lined (.init size) [] :=
    ⟨hinit, (queues_init size).lined_of_size (by omega)⟩
  obtain ⟨cb, elems, trace, hrun, hspec, -, hlined⟩ :=
    Circbuf.machine.run_refines (Fifo.machine size) HasRoom (fun cb elems => cb.size = size ∧ Lined cb elems)
      (fun cb elems op h hc => by
        obtain ⟨rfl, h⟩ := h
        obtain ⟨hreply, hsize, hlined⟩ := h.step op hc
        exact ⟨(cb.step op).1, (Fifo.step cb.size elems op).1, (cb.step op).2, rfl,
          congrArg some (Prod.ext rfl hreply.symm), hsize, hlined⟩) hstart hm
  exact ⟨cb, elems, trace, hrun, hspec, Queues.contents (.inr hlined)⟩

def threeBytes : Elem := ⟨[1, 2, 3], by decide⟩

def oneByte : Elem := ⟨[9], by decide⟩

def threeAndOne : List QueueOp :=
  [.push threeBytes, .push oneByte, .peek 1, .freeSpace, .pop 3, .push threeBytes, .pop 8, .elemCounts]

theorem circbuf_refines_fifo_eight :
    ∃ cb elems trace, Circbuf.machine.run (.init 8) threeAndOne = some (cb, trace) ∧
      (Fifo.machine 8).run [] threeAndOne = some (elems, trace) ∧ cb.contents = elems :=
  circbuf_refines_fifo 8 (by decide) (by decide) threeAndOne (by decide +kernel)

/-- A pop into one byte leaves the read index inside the element: the next pop takes its second
byte for a length. -/
theorem short_pop_loses_frame :
    (Circbuf.machine.run (.init 8) [.push threeBytes, .push oneByte, .pop 1, .pop 8]).map
        (fun r => r.2.map Prod.snd) = some [.ok, .ok, .data [1], .data [3, 1]] ∧
      ((Fifo.machine 8).run [] [.push threeBytes, .push oneByte, .pop 1, .pop 8]).map
        (fun r => r.2.map Prod.snd) = some [.ok, .ok, .data [1], .data [9]] := by
  decide +kernel

end Qumios.EventBus
