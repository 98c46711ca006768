import Qumios.Lib.Buffer
import Qumios.Lib.Ring
import Qumios.Lib.Run

/-! The message queue of the systems without an operating system (`qm_noos.c`), over a
ring of bytes (`qm_ringbuf.c`).

The ring is made as large as the messages it is meant for, but keeps one byte free, and
a push of bytes it has no room for stores those it has. A queue is a queue of whole
messages as long as a message is sent only where all of it fits: one message less than
the queue was made for. -/
namespace Qumios.Noos
open Run RingBuffer List Nat

/-- `QM_EINVAL`. -/
def einval : Int := 10

/-! ### `qm_ringbuf.c` -/

/-- `qm_ringbuf_t`; `size` is the length of the buffer. -/
structure Ringbuf where
  buffer : Bytes
  readpoint : Nat
  writepoint : Nat
  deriving DecidableEq, Repr

namespace Ringbuf

def size (rb : Ringbuf) : Nat := rb.buffer.length

/-- `qm_ringbuf_init`. -/
def init (size : Nat) : Ringbuf := ⟨List.replicate size 0, 0, 0⟩

/-- The loop of `qm_ringbuf_push`: the number of bytes that were stored. -/
def pushLoop (rb : Ringbuf) : Bytes → Nat × Ringbuf
  | [] => (0, rb)
  | x :: rest =>
    if (rb.writepoint + 1) % rb.size = rb.readpoint then (0, rb)
    else
      let writepoint := if rb.writepoint < rb.size - 1 then rb.writepoint + 1 else 0
      let (i, rb') := pushLoop { rb with buffer := rb.buffer.set writepoint x, writepoint := writepoint } rest
      (i + 1, rb')

/-- `qm_ringbuf_push`. -/
def push (rb : Ringbuf) (data : Bytes) : Int × Ringbuf :=
  if data.length = 0 then (0, rb)
  else if data.length > rb.size then (-einval, rb)
  else
    let (i, rb') := rb.pushLoop data
    (i, rb')

/-- `qm_ringbuf_pop`. -/
def pop (rb : Ringbuf) : Nat → Bytes × Ringbuf
  | 0 => ([], rb)
  | n + 1 =>
    if rb.writepoint = rb.readpoint then ([], rb)
    else
      let readpoint := if rb.readpoint = rb.size - 1 then 0 else rb.readpoint + 1
      let (data, rb') := pop { rb with readpoint := readpoint } n
      (rb.buffer.getD readpoint 0 :: data, rb')

/-- `qm_ringbuf_isempty`. -/
def isempty (rb : Ringbuf) : Bool := rb.writepoint = rb.readpoint

def used (rb : Ringbuf) : Nat := (rb.writepoint + rb.size - rb.readpoint) % rb.size

end Ringbuf

/-! ### `qm_noos.c` -/

/-- `qm_noos_queue_t`. -/
structure Queue where
  ringbuf : Ringbuf
  queueSize : Nat
  deriving DecidableEq, Repr

inductive Reply where
  | ok
  | einval
  | efull
  | eempty
  /-- A message of so many bytes. -/
  | msg (data : Bytes)
  | flag (b : Bool)
  deriving DecidableEq, Repr

namespace Queue

/-- `qm_noos_generic_queue_new`: the bytes of a queue are counted in 32 bits. -/
def new (queueLen queueSize : Nat) : Queue where
  ringbuf := .init (if queueSize ≠ 0 then queueLen * queueSize % 2 ^ 32 else queueLen)
  queueSize := queueSize

/-- `qm_noos_generic_queue_send`: whatever the push returns, unless it is zero, is success. -/
def send (q : Queue) (msg : Bytes) : Queue × Reply :=
  if msg.length = 0 then (q, .einval)
  else if msg.length ≠ q.queueSize then (q, .einval)
  else
    let (ret, ringbuf) := q.ringbuf.push msg
    ({ q with ringbuf := ringbuf }, if ret ≠ 0 then .ok else .efull)

/-- `qm_noos_generic_queue_recv`. -/
def recv (q : Queue) : Queue × Reply :=
  let (data, ringbuf) := q.ringbuf.pop q.queueSize
  ({ q with ringbuf := ringbuf }, if data.length ≠ 0 then .msg data else .eempty)

/-- `qm_noos_generic_queue_is_empty`. -/
def isEmpty (q : Queue) : Bool := q.ringbuf.isempty

end Queue

/-- A call on a queue of messages of `size` bytes. -/
inductive Call (size : Nat) where
  | send (msg : Bytes) (whole : msg.length = size)
  | recv
  | isEmpty

def Queue.step {size : Nat} (q : Queue) : Call size → Queue × Reply
  | .send msg _ => q.send msg
  | .recv => q.recv
  | .isEmpty => (q, .flag q.isEmpty)

def machine (size : Nat) : Machine Queue (Call size) Reply where
  step q call := some (q.step call)

/-! ### The queue that is meant -/

namespace Fifo

/-- At most `capacity` messages, in the order in which they were accepted. -/
def step {size : Nat} (capacity : Nat) (msgs : List Bytes) : Call size → List Bytes × Reply
  | .send msg _ => if msgs.length < capacity then (msgs ++ [msg], .ok) else (msgs, .efull)
  | .recv =>
    match msgs with
    | [] => ([], .eempty)
    | msg :: rest => (rest, .msg msg)
  | .isEmpty => (msgs, .flag msgs.isEmpty)

def machine (size capacity : Nat) : Machine (List Bytes) (Call size) Reply where
  step msgs call := some (step capacity msgs call)

end Fifo

/-! ### The ring, with room for what is pushed -/

section Ring
variable {rb : Ringbuf} {a b : Bytes}

theorem next_point {point size : Nat} (h : point < size) :
    (if point < size - 1 then point + 1 else 0) = (point + 1) % size := by
  split
  · rw [mod_eq_of_lt (by omega)]
  · rw [show point + 1 = size by omega, mod_self]

theorem next_point' {point size : Nat} (h : point < size) :
    (if point = size - 1 then 0 else point + 1) = (point + 1) % size := by
  split
  · rw [show point + 1 = size by omega, mod_self]
  · rw [mod_eq_of_lt (by omega)]

/-- The bytes `data` are in the ring. -/
structure Ringbuf.Has (rb : Ringbuf) (data : Bytes) : Prop where
  read : rb.readpoint < rb.size
  room : data.length < rb.size
  write : rb.writepoint = (rb.readpoint + data.length) % rb.size
  holds : Holds rb.buffer ((rb.readpoint + 1) % rb.size) data

theorem Ringbuf.Has.used (h : rb.Has a) : rb.used = a.length := by
  rw [Ringbuf.used, h.write, distance h.read h.room]

/-- The two points meet only where nothing is in the ring. -/
theorem Ringbuf.Has.isempty (h : rb.Has a) : rb.isempty = a.isEmpty := by
  have hused := h.used
  cases a with
  | nil =>
    have hwrite := h.write
    rw [length_nil, Nat.add_zero, Nat.mod_eq_of_lt h.read] at hwrite
    exact decide_eq_true hwrite
  | cons x rest =>
    refine decide_eq_false fun heq => ?_
    rw [Ringbuf.used, heq, Nat.add_sub_cancel_left, Nat.mod_self] at hused
    cases hused

def Ringbuf.stored (rb : Ringbuf) (x : UInt8) : Ringbuf :=
  { rb with
    buffer := rb.buffer.set ((rb.writepoint + 1) % rb.size) x
    writepoint := (rb.writepoint + 1) % rb.size }

@[simp] theorem Ringbuf.size_stored (rb : Ringbuf) (x : UInt8) : (rb.stored x).size = rb.size := length_set

section
variable (h : rb.Has a)
include h

/-- A byte is stored as long as one stays free. -/
theorem Ringbuf.Has.snoc (x : UInt8) (hroom : a.length + 1 < rb.size) :
    (rb.writepoint + 1) % rb.size ≠ rb.readpoint ∧ (rb.stored x).Has (a ++ [x]) := by
  have hnext : (rb.writepoint + 1) % rb.size = (rb.readpoint + (a.length + 1)) % rb.size := by
    rw [h.write, Nat.mod_add_mod, Nat.add_assoc]
  have hcell : (rb.writepoint + 1) % rb.size = ((rb.readpoint + 1) % rb.size + a.length) % rb.size := by
    rw [hnext, Nat.mod_add_mod, Nat.add_assoc, Nat.add_comm 1]
  refine ⟨fun heq => ?_, ?_, ?_, ?_, ?_⟩
  · have hd := distance h.read hroom
    rw [← hnext, heq, Nat.add_sub_cancel_left, Nat.mod_self] at hd
    cases hd
  · rw [Ringbuf.size_stored]
    exact h.read
  · rw [Ringbuf.size_stored, length_append, length_singleton]
    exact hroom
  · rw [Ringbuf.size_stored, length_append, length_singleton]
    exact hnext
  · rw [Ringbuf.size_stored]
    show Holds (rb.buffer.set ((rb.writepoint + 1) % rb.size) x) ((rb.readpoint + 1) % rb.size) (a ++ [x])
    rw [hcell]
    exact h.holds.snoc (Nat.lt_of_succ_lt hroom) x

theorem Ringbuf.Has.full (hfull : ¬ a.length + 1 < rb.size) : (rb.writepoint + 1) % rb.size = rb.readpoint := by
  have hroom := h.room
  rw [h.write, mod_add_mod, add_assoc, show a.length + 1 = rb.size by omega, add_mod_right,
    mod_eq_of_lt h.read]

/-- As many bytes as leave one free are stored behind those in the ring. -/
theorem Ringbuf.Has.pushLoop (b : Bytes) :
    (rb.pushLoop b).1 = (b.take (rb.size - 1 - a.length)).length ∧ (rb.pushLoop b).2.size = rb.size ∧
      (rb.pushLoop b).2.Has (a ++ b.take (rb.size - 1 - a.length)) := by
  induction b generalizing rb a with
  | nil => exact ⟨by rw [take_nil]; rfl, rfl, by rw [take_nil, append_nil]; exact h⟩
  | cons x rest ih =>
    have hwrite : rb.writepoint < rb.size := by
      rw [h.write]
      exact mod_lt _ (zero_lt_of_lt h.read)
    by_cases hroom : a.length + 1 < rb.size
    · obtain ⟨hne, hsnoc⟩ := h.snoc x hroom
      obtain ⟨hcount, hsize, hhas⟩ := ih hsnoc
      have htake : rb.size - 1 - a.length = (rb.size - 1 - (a ++ [x]).length) + 1 := by
        rw [length_append, length_singleton]
        omega
      rw [Ringbuf.size_stored] at hcount hsize hhas
      rw [append_assoc] at hhas
      rw [Ringbuf.pushLoop, if_neg hne, htake, take_succ_cons]
      simp only [next_point hwrite]
      exact ⟨congrArg (· + 1) hcount, hsize, hhas⟩
    · rw [Ringbuf.pushLoop, if_pos (h.full hroom), show rb.size - 1 - a.length = 0 by omega, take_zero,
        append_nil]
      exact ⟨rfl, rfl, h⟩

theorem Ringbuf.Has.push (hb : b ≠ []) (hroom : a.length + b.length < rb.size) :
    (rb.push b).1 ≠ 0 ∧ (rb.push b).2.size = rb.size ∧ (rb.push b).2.Has (a ++ b) := by
  have hlen : b.length ≠ 0 := mt eq_nil_of_length_eq_zero hb
  obtain ⟨hcount, hsize, hhas⟩ := h.pushLoop b
  rw [take_of_length_le (by omega)] at hcount hhas
  rw [Ringbuf.push, if_neg hlen, if_neg (by omega)]
  refine ⟨?_, hsize, hhas⟩
  show ((rb.pushLoop b).1 : Int) ≠ 0
  rw [hcount]
  exact Int.natCast_ne_zero.mpr hlen

/-- The bytes in front are taken out, as many as there are. -/
theorem Ringbuf.Has.pop_take (n : Nat) :
    (rb.pop n).1 = a.take n ∧ (rb.pop n).2.size = rb.size ∧ (rb.pop n).2.Has (a.drop n) := by
  induction n generalizing rb a with
  | zero => exact ⟨rfl, rfl, h⟩
  | succ n ih =>
    cases a with
    | nil =>
      rw [Ringbuf.pop, if_pos (of_decide_eq_true h.isempty)]
      exact ⟨rfl, rfl, h⟩
    | cons x rest =>
      have hne : rb.writepoint ≠ rb.readpoint := of_decide_eq_false h.isempty
      have hfront : rb.buffer[(rb.readpoint + 1) % rb.size]? = some x := h.holds.front
      have hhas : Ringbuf.Has { rb with readpoint := (rb.readpoint + 1) % rb.size } rest := by
        refine ⟨mod_lt _ (zero_lt_of_lt h.read), lt_of_succ_lt h.room, ?_, h.holds.tail⟩
        show rb.writepoint = _ % rb.size
        rw [h.write, mod_add_mod, length_cons, add_assoc, add_comm 1]
      obtain ⟨hdata, hsize, hrest⟩ := ih hhas
      rw [Ringbuf.pop, if_neg hne]
      simp only [next_point' h.read]
      refine ⟨?_, hsize, hrest⟩
      rw [hdata, getD_eq_getElem?_getD, hfront, Option.getD_some, take_succ_cons]
end

theorem Ringbuf.Has.pop (h : rb.Has (a ++ b)) :
    (rb.pop a.length).1 = a ∧ (rb.pop a.length).2.size = rb.size ∧ (rb.pop a.length).2.Has b := by
  have hpop := h.pop_take a.length
  rwa [take_left, drop_left] at hpop

theorem Ringbuf.Has.pop_nil (h : rb.Has []) (n : Nat) : rb.pop n = ([], rb) := by
  cases n with
  | zero => rfl
  | succ n => rw [Ringbuf.pop, if_pos (of_decide_eq_true h.isempty)]

end Ring

/-! ### The queue follows the one that is meant -/

def HasRoom {size : Nat} (q : Queue) : Call size → Prop
  | .send msg _ => q.ringbuf.used + msg.length < q.ringbuf.size
  | _ => True

instance {size : Nat} (q : Queue) : DecidablePred (fun call : Call size => HasRoom q call)
  | .send msg _ => inferInstanceAs (Decidable (q.ringbuf.used + msg.length < q.ringbuf.size))
  | .recv => isTrue trivial
  | .isEmpty => isTrue trivial

/-- The messages that are stored, each of them whole. -/
structure Stores (queueLen queueSize : Nat) (q : Queue) (msgs : List Bytes) : Prop where
  size : q.queueSize = queueSize
  bytes : q.ringbuf.size = queueLen * queueSize
  whole : ∀ msg ∈ msgs, msg.length = queueSize
  has : q.ringbuf.Has msgs.flatten

section Steps
variable {queueLen queueSize : Nat} {q : Queue} {msgs : List Bytes}

theorem Stores.length_flatten (h : Stores queueLen queueSize q msgs) :
    msgs.flatten.length = msgs.length * queueSize := by
  rw [List.length_flatten, eq_replicate_of_mem (l := msgs.map List.length) (a := queueSize), sum_replicate,
    length_map, smul_eq_mul]
  intro n hn
  obtain ⟨msg, hmem, rfl⟩ := mem_map.mp hn
  exact h.whole msg hmem

/-- **One call.** -/
theorem Stores.step (h : Stores queueLen queueSize q msgs) (hpos : 0 < queueSize) (call : Call queueSize)
    (hc : HasRoom q call) :
    (q.step call).2 = (Fifo.step queueLen msgs call).2 ∧
      Stores queueLen queueSize (q.step call).1 (Fifo.step queueLen msgs call).1 := by
  cases call with
  | send msg whole =>
    have hroom : q.ringbuf.used + msg.length < q.ringbuf.size := hc
    rw [h.has.used] at hroom
    have hne : msg ≠ [] := by
      rintro rfl
      exact Nat.ne_of_lt hpos whole
    obtain ⟨hret, hsize, hhas⟩ := h.has.push hne hroom
    -- Where the message and a byte more fit, fewer than `queueLen` messages are stored.
    have hfew : msgs.length < queueLen := by
      rw [h.length_flatten, whole, h.bytes] at hroom
      exact Nat.lt_of_mul_lt_mul_right (Nat.lt_of_le_of_lt (Nat.le_add_right _ _) hroom)
    have hwhole : msg.length ≠ 0 := by rw [whole]; exact Nat.ne_of_gt hpos
    rw [Queue.step, Queue.send, if_neg hwhole, if_neg (not_not.mpr (whole.trans h.size.symm)), Fifo.step, if_pos hfew]
    refine ⟨if_pos hret, h.size, hsize.trans h.bytes, forall_snoc h.whole whole, ?_⟩
    rw [flatten_append, flatten_singleton]
    exact hhas
  | recv =>
    rw [Queue.step, Queue.recv]
    cases msgs with
    | nil =>
      rw [h.has.pop_nil]
      exact ⟨rfl, h⟩
    | cons msg rest =>
      have hlen : msg.length = queueSize := h.whole msg (mem_cons_self ..)
      have hhas : q.ringbuf.Has (msg ++ rest.flatten) := h.has
      obtain ⟨hdata, hsize, hrest⟩ := hhas.pop
      rw [hlen, ← h.size] at hdata hsize hrest
      dsimp only
      rw [hdata, if_pos (by rw [hlen]; exact Nat.ne_of_gt hpos)]
      exact ⟨rfl, h.size, hsize.trans h.bytes, fun m hm => h.whole m (mem_cons_of_mem _ hm), hrest⟩
  | isEmpty =>
    refine ⟨congrArg Reply.flag ?_, h⟩
    rw [Queue.isEmpty, h.has.isempty]
    cases msgs with
    | nil => rfl
    | cons msg rest =>
      have hlen : msg.length = queueSize := h.whole msg (mem_cons_self ..)
      cases msg with
      | nil => exact absurd hlen (Nat.ne_of_lt hpos)
      | cons x xs => rfl

end Steps

/-- **The queue is a queue of whole messages.** For every length and message size, and every sequence
of calls in which a message is sent only where it leaves a byte of the ring free, each call
answers what the bounded queue answers: every message comes out whole, in the order in which
it was accepted. -/
theorem queue_refines_fifo (queueLen queueSize : Nat) (hlen : 0 < queueLen) (hsize : 0 < queueSize)
    (hbytes : queueLen * queueSize < 2 ^ 32) (calls : List (Call queueSize))
    (hm : (machine queueSize).Meets HasRoom (.new queueLen queueSize) calls) :
    ∃ q msgs trace, (machine queueSize).run (.new queueLen queueSize) calls = some (q, trace) ∧
      (Fifo.machine queueSize queueLen).run [] calls = some (msgs, trace) := by
  have hring : (Queue.new queueLen queueSize).ringbuf.size = queueLen * queueSize := by
    rw [Queue.new, if_pos (ne_of_gt hsize), mod_eq_of_lt hbytes]
    exact length_replicate
  have hring_pos : 0 < (Queue.new queueLen queueSize).ringbuf.size := by
    rw [hring]
    exact mul_pos hlen hsize
  have hnew : Stores queueLen queueSize (.new queueLen queueSize) [] :=
    ⟨rfl, hring, fun msg hmem => absurd hmem not_mem_nil, hring_pos, hring_pos, (zero_mod _).symm,
      .nil (mod_lt _ hring_pos)⟩
  obtain ⟨q, msgs, trace, hrun, hspec, -⟩ :=
    (machine queueSize).run_refines (Fifo.machine queueSize queueLen) HasRoom (Stores queueLen queueSize)
      (fun q msgs call h hc => by
        obtain ⟨hreply, hstores⟩ := h.step hsize call hc
        exact ⟨(q.step call).1, (Fifo.step queueLen msgs call).1, (q.step call).2, rfl,
          congrArg some (Prod.ext rfl hreply.symm), hstores⟩) hnew hm
  exact ⟨q, msgs, trace, hrun, hspec⟩

def pair (x y : UInt8) : Call 2 := .send [x, y] rfl

theorem queue_refines_fifo_three :
    ∃ q msgs trace, (machine 2).run (.new 3 2) [pair 1 2, pair 3 4, .recv, pair 5 6, .recv, .recv, .recv, .isEmpty] =
        some (q, trace) ∧
      (Fifo.machine 2 3).run [] [pair 1 2, pair 3 4, .recv, pair 5 6, .recv, .recv, .recv, .isEmpty] =
        some (msgs, trace) :=
  queue_refines_fifo 3 2 (by decide) (by decide) (by decide)
    [pair 1 2, pair 3 4, .recv, pair 5 6, .recv, .recv, .recv, .isEmpty] (by decide +kernel)

/-- In a queue made for two messages the second one is accepted and half of it stored. -/
theorem last_message_cut :
    ((machine 2).run (.new 2 2) [pair 1 2, pair 3 4, .recv, .recv]).map (fun r => r.2.map Prod.snd) =
        some [.ok, .ok, .msg [1, 2], .msg [3]] ∧
      ((Fifo.machine 2 2).run [] [pair 1 2, pair 3 4, .recv, .recv]).map (fun r => r.2.map Prod.snd) =
        some [.ok, .ok, .msg [1, 2], .msg [3, 4]] := by
  decide +kernel

end Qumios.Noos
