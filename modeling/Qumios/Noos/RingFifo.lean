import Qumios.Noos.Queue

/-! The ring of bytes by itself: `qm_ringbuf.c` with any lengths.

The queue of `Noos.Queue` pushes and pops whole messages. By itself the ring takes any
number of bytes: a push stores those it has room for and says how many, a pop gives those
there are. `Fifo` is what that comes to, with no ring in it: the bytes that are stored, at
most `capacity` of them. -/
namespace Qumios.Noos.Ringbuf
open Run RingBuffer List

/-! ### Calls -/

/-- A length, compared with `uint32_t`. -/
def asU32 (len : Int) : Int := if len < 0 then len + 2 ^ 32 else len

/-- The bytes at a pointer, of which there are `len`. -/
def bytesAt (data : Nat → UInt8) (len : Int) : Bytes := (List.range len.toNat).map data

/-- `qm_ringbuf_push` of `len` bytes from a pointer that may be null. -/
def pushFrom (rb : Ringbuf) (data : Option (Nat → UInt8)) (len : Int) : Int × Ringbuf :=
  match data with
  | none => (0, rb)
  | some data =>
    if len = 0 then (0, rb)
    else if asU32 len > rb.size then (-einval, rb)
    else
      let (i, rb') := rb.pushLoop (bytesAt data len)
      (i, rb')

/-- `qm_ringbuf_flush`. -/
def flush (rb : Ringbuf) : Ringbuf := ⟨List.replicate rb.size 0, 0, 0⟩

inductive Op where
  | push (data : Option (Nat → UInt8)) (len : Int)
  | pop (len : Int)
  | flush
  | isempty

inductive Answer where
  | count (ret : Int)
  | popped (data : Bytes)
  | flushed
  | empty (b : Bool)
  deriving DecidableEq, Repr

def step (rb : Ringbuf) : Op → Ringbuf × Answer
  | .push data len => ((rb.pushFrom data len).2, .count (rb.pushFrom data len).1)
  | .pop len => ((rb.pop len.toNat).2, .popped (rb.pop len.toNat).1)
  | .flush => (rb.flush, .flushed)
  | .isempty => (rb, .empty rb.isempty)

def ringMachine : Machine Ringbuf Op Answer where
  step rb op := some (rb.step op)

/-! ### The bytes that are stored -/

namespace Fifo

/-- A push is accepted up to the capacity; one longer than a ring of `capacity + 1` bytes is
refused. -/
def push (capacity : Nat) (stored : Bytes) (data : Option (Nat → UInt8)) (len : Int) : Bytes × Int :=
  match data with
  | none => (stored, 0)
  | some data =>
    if len = 0 then (stored, 0)
    else if asU32 len > capacity + 1 then (stored, -einval)
    else
      let accepted := (bytesAt data len).take (capacity - stored.length)
      (stored ++ accepted, accepted.length)

def step (capacity : Nat) (stored : Bytes) : Op → Bytes × Answer
  | .push data len => ((push capacity stored data len).1, .count (push capacity stored data len).2)
  | .pop len => (stored.drop len.toNat, .popped (stored.take len.toNat))
  | .flush => ([], .flushed)
  | .isempty => (stored, .empty stored.isEmpty)

def machine (capacity : Nat) : Machine Bytes Op Answer where
  step stored op := some (step capacity stored op)

end Fifo

/-! ### What went in and what came out -/

def acceptedThen (sofar : Bytes) : Op × Answer → Bytes
  | (.push (some data) len, .count ret) => sofar ++ (bytesAt data len).take ret.toNat
  | (.flush, _) => []
  | _ => sofar

def acceptedSince (trace : List (Op × Answer)) : Bytes := trace.foldl acceptedThen []

def poppedThen (sofar : Bytes) : Op × Answer → Bytes
  | (.pop _, .popped data) => sofar ++ data
  | (.flush, _) => []
  | _ => sofar

def poppedSince (trace : List (Op × Answer)) : Bytes := trace.foldl poppedThen []

variable (capacity : Nat) (trace : List (Op × Answer)) (x : Op × Answer)

theorem acceptedSince_snoc : acceptedSince (trace ++ [x]) = acceptedThen (acceptedSince trace) x := by
  rw [acceptedSince, foldl_append]
  rfl

theorem poppedSince_snoc : poppedSince (trace ++ [x]) = poppedThen (poppedSince trace) x := by
  rw [poppedSince, foldl_append]
  rfl

/-- What a push counts is what it stores. -/
theorem Fifo.push_stores (stored : Bytes) (data : Nat → UInt8) (len : Int) :
    (Fifo.push capacity stored (some data) len).1 =
      stored ++ (bytesAt data len).take (Fifo.push capacity stored (some data) len).2.toNat := by
  simp only [Fifo.push]
  split
  · exact (append_nil stored).symm
  · split
    · exact (append_nil stored).symm
    · rw [Int.toNat_natCast]
      refine congrArg (stored ++ ·) (take_eq_take_iff.mpr ?_)
      rw [length_take, min_assoc, min_self]

variable {stored : Bytes} {rb : Ringbuf}

/-- One operation: what was accepted and is not popped is stored. -/
theorem Fifo.balance {accepted popped : Bytes} (op : Op) (h : accepted = popped ++ stored) :
    acceptedThen accepted (op, (Fifo.step capacity stored op).2) =
      poppedThen popped (op, (Fifo.step capacity stored op).2) ++ (Fifo.step capacity stored op).1 := by
  cases op with
  | push data len =>
    cases data with
    | none => exact h
    | some data =>
      show accepted ++ _ = popped ++ (Fifo.push capacity stored (some data) len).1
      rw [Fifo.push_stores, h, append_assoc]
  | pop len =>
    show accepted = popped ++ stored.take len.toNat ++ stored.drop len.toNat
    rw [h, append_assoc, take_append_drop]
  | flush => rfl
  | isempty => exact h

/-! ### The ring follows -/

/-- The ring of `size` bytes has the stored bytes in it. -/
structure Follows (size : Nat) (rb : Ringbuf) (stored : Bytes) : Prop where
  size : rb.size = size
  has : rb.Has stored

theorem has_nil (hread : rb.readpoint = 0) (hwrite : rb.writepoint = 0) (hpos : 0 < rb.size) : rb.Has [] := by
  refine ⟨hread ▸ hpos, hpos, ?_, .nil (Nat.mod_lt _ hpos)⟩
  rw [hread, hwrite]
  exact (Nat.zero_mod _).symm

theorem Follows.push {size : Nat} (h : Follows size rb stored) (data : Option (Nat → UInt8)) (len : Int) :
    (rb.pushFrom data len).1 = (Fifo.push (size - 1) stored data len).2 ∧
      Follows size (rb.pushFrom data len).2 (Fifo.push (size - 1) stored data len).1 := by
  have hcap : ((size - 1 : Nat) : Int) + 1 = rb.size := by
    have hpos : 0 < rb.size := Nat.zero_lt_of_lt h.has.read
    rw [h.size] at hpos ⊢
    omega
  cases data with
  | none => exact ⟨rfl, h⟩
  | some data =>
    obtain ⟨hcount, hsize, hhas⟩ := h.has.pushLoop (bytesAt data len)
    rw [h.size] at hcount hhas
    simp only [pushFrom, Fifo.push, hcap]
    split
    · exact ⟨rfl, h⟩
    · split
      · exact ⟨rfl, h⟩
      · exact ⟨congrArg Nat.cast hcount, hsize.trans h.size, hhas⟩

/-- **One call**: the ring answers as the FIFO does. -/
theorem Follows.step {size : Nat} (h : Follows size rb stored) (op : Op) :
    (rb.step op).2 = (Fifo.step (size - 1) stored op).2 ∧
      Follows size (rb.step op).1 (Fifo.step (size - 1) stored op).1 := by
  cases op with
  | push data len =>
    obtain ⟨hcount, hfollows⟩ := h.push data len
    exact ⟨congrArg Answer.count hcount, hfollows⟩
  | pop len =>
    obtain ⟨hdata, hsize, hhas⟩ := h.has.pop_take len.toNat
    exact ⟨congrArg Answer.popped hdata, hsize.trans h.size, hhas⟩
  | flush =>
    have hlen : rb.flush.size = rb.size := length_replicate
    exact ⟨rfl, hlen.trans h.size, has_nil rfl rfl (hlen ▸ Nat.zero_lt_of_lt h.has.read)⟩
  | isempty => exact ⟨congrArg Answer.empty h.has.isempty, h⟩

/-- **The ring is a FIFO of `size - 1` bytes**: for any operations with any lengths it gives the
answers of the FIFO, and what was accepted since the last flush is what was popped, followed by
what is stored. -/
theorem ring_is_fifo (size : Nat) (hsize : 2 ≤ size) (ops : List Op) :
    ∃ rb stored trace, ringMachine.run (init size) ops = some (rb, trace) ∧
      (Fifo.machine (size - 1)).run [] ops = some (stored, trace) ∧ stored.length ≤ size - 1 ∧
      acceptedSince trace = poppedSince trace ++ stored ∧ (rb.isempty = true ↔ stored = []) := by
  have hinit : Follows size (init size) [] := by
    have hlen : (init size).size = size := List.length_replicate
    exact ⟨hlen, has_nil rfl rfl (by omega)⟩
  obtain ⟨rb, stored, trace, hrun, hfifo, hfollows⟩ :=
    ringMachine.run_refines (Fifo.machine (size - 1)) (fun _ _ => True) (Follows size)
      (fun rb stored op h _ => by
        obtain ⟨hanswer, hnext⟩ := h.step op
        exact ⟨_, _, _, rfl, congrArg (fun a => some (_, a)) hanswer.symm, hnext⟩)
      hinit (ringMachine.meets_true _ ops)
  have hbalance : acceptedSince trace = poppedSince trace ++ stored :=
    (Fifo.machine (size - 1)).run_invariant_always
      (fun trace stored => acceptedSince trace = poppedSince trace ++ stored)
      (fun past stored op stored' answer h hs => by
        have hstep : Fifo.step (size - 1) stored op = (stored', answer) := Option.some.inj hs
        have hnext := Fifo.balance (size - 1) op h
        rw [hstep] at hnext
        rw [acceptedSince_snoc, poppedSince_snoc]
        exact hnext) rfl hfifo
  have hroom := hfollows.has.room
  rw [hfollows.size] at hroom
  refine ⟨rb, stored, trace, hrun, hfifo, by omega, hbalance, ?_⟩
  rw [hfollows.has.isempty, List.isEmpty_iff]

/-- A ring of four bytes, offered four, takes three; a push of five is refused. -/
theorem ring_is_fifo_four :
    ∃ rb stored trace,
      ringMachine.run (init 4)
        [.push (some fun i => UInt8.ofNat i) 4, .pop 2, .push (some fun _ => 9) 5, .push (some fun _ => 7) 1] =
          some (rb, trace) ∧
      (Fifo.machine 3).run []
        [.push (some fun i => UInt8.ofNat i) 4, .pop 2, .push (some fun _ => 9) 5, .push (some fun _ => 7) 1] =
          some (stored, trace) ∧ stored.length ≤ 3 ∧
      acceptedSince trace = poppedSince trace ++ stored ∧ (rb.isempty = true ↔ stored = []) :=
  ring_is_fifo 4 (by decide) _

end Qumios.Noos.Ringbuf
