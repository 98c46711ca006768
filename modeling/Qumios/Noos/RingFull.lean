import Qumios.Noos.RingFifo

/-! The flag `full` of `qm_ringbuf.c`.

A push that meets a full ring sets it, a pop that gives a byte clears it. A push that is exactly as long as
the room fills the ring and leaves the flag clear. -/
namespace Qumios.Noos.Ringbuf
open Run List

/-- `full` behind the loop of `qm_ringbuf_push`. -/
def fullPushLoop (rb : Ringbuf) (full : Bool) : Bytes → Bool
  | [] => full
  | x :: rest =>
    if (rb.writepoint + 1) % rb.size = rb.readpoint then true
    else
      let writepoint := if rb.writepoint < rb.size - 1 then rb.writepoint + 1 else 0
      fullPushLoop { rb with buffer := rb.buffer.set writepoint x, writepoint := writepoint } full rest

/-- `full` behind `qm_ringbuf_push`. -/
def fullPush (rb : Ringbuf) (full : Bool) (data : Option (Nat → UInt8)) (len : Int) : Bool :=
  match data with
  | none => full
  | some data => if len = 0 then full else if asU32 len > rb.size then full else rb.fullPushLoop full (bytesAt data len)

/-- `full` behind `qm_ringbuf_pop`. -/
def fullPop (rb : Ringbuf) (full : Bool) : Nat → Bool
  | 0 => full
  | n + 1 =>
    if rb.writepoint = rb.readpoint then full
    else fullPop { rb with readpoint := if rb.readpoint = rb.size - 1 then 0 else rb.readpoint + 1 } false n

/-- The ring with its flag; `qm_ringbuf_isfull` is the flag. -/
def flagMachine : Machine (Ringbuf × Bool) Op Answer where
  step s op := some (((s.1.step op).1, match op with
    | .push data len => s.1.fullPush s.2 data len
    | .pop len => s.1.fullPop s.2 len.toNat
    | .flush => false
    | .isempty => s.2), (s.1.step op).2)

/-- A push is not exactly as long as the room that is left. -/
def Uneven (s : Ringbuf × Bool) : Op → Prop
  | .push _ len => len = 0 ∨ len ≠ (s.1.size - 1 - s.1.used : Nat)
  | _ => True

instance (s : Ringbuf × Bool) : ∀ op, Decidable (Uneven s op)
  | .push _ _ => inferInstanceAs (Decidable (_ ∨ _))
  | .pop _ | .flush | .isempty => isTrue trivial

variable {rb : Ringbuf} {a : Bytes}

/-- The flag is set by the push that asks for more than the room. -/
theorem Has.fullPushLoop (h : rb.Has a) (full : Bool) (b : Bytes) :
    rb.fullPushLoop full b = true ↔ full = true ∨ rb.size - 1 - a.length < b.length := by
  induction b generalizing rb a with
  | nil => simp only [Ringbuf.fullPushLoop, length_nil, Nat.not_lt_zero, or_false]
  | cons x rest ih =>
    have hwrite : rb.writepoint < rb.size := by
      rw [h.write]
      exact Nat.mod_lt _ (Nat.zero_lt_of_lt h.read)
    by_cases hroom : a.length + 1 < rb.size
    · obtain ⟨hne, hsnoc⟩ := h.snoc x hroom
      have hrest := ih hsnoc
      rw [Ringbuf.size_stored, length_append, length_singleton] at hrest
      rw [Ringbuf.fullPushLoop, if_neg hne]
      simp only [next_point hwrite]
      refine hrest.trans (or_congr_right ?_)
      rw [length_cons]
      omega
    · rw [Ringbuf.fullPushLoop, if_pos (h.full hroom)]
      refine iff_of_true rfl (.inr ?_)
      rw [length_cons]
      omega

theorem fullPop_false (rb : Ringbuf) (n : Nat) : rb.fullPop false n = false := by
  induction n generalizing rb with
  | zero => rfl
  | succ n ih => rw [fullPop, ih, ite_self]

theorem Has.fullPop (h : rb.Has a) (full : Bool) (n : Nat) :
    rb.fullPop full n = true ↔ full = true ∧ (n = 0 ∨ a = []) := by
  cases n with
  | zero => simp only [Ringbuf.fullPop, true_or, and_true]
  | succ n =>
    have hempty : rb.writepoint = rb.readpoint ↔ a = [] := by
      rw [← List.isEmpty_iff, ← h.isempty, Ringbuf.isempty, decide_eq_true_iff]
    rw [Ringbuf.fullPop, fullPop_false, ← hempty]
    split
    next hnil => simp only [hnil, or_true, and_true]
    next hne => simp only [hne, Nat.succ_ne_zero, or_false, and_false, Bool.false_eq_true]

/-- The flag says that no byte has room. -/
def Exact (size : Nat) (s : Ringbuf × Bool) : Prop :=
  ∃ stored, Follows size s.1 stored ∧ (s.2 = true ↔ stored.length = size - 1)

theorem exact_step {size : Nat} {s s' : Ringbuf × Bool} {op : Op} {answer : Answer} (hsize : 2 ≤ size)
    (h : Exact size s) (hu : Uneven s op) (hs : flagMachine.step s op = some (s', answer)) : Exact size s' := by
  obtain ⟨rb, full⟩ := s
  obtain ⟨stored, hfollows, hfull⟩ := h
  obtain ⟨rfl, -⟩ := Prod.mk.inj (Option.some.inj hs)
  refine ⟨(Fifo.step (size - 1) stored op).1, (hfollows.step op).2, ?_⟩
  have hroom := hfollows.has.room
  have hrb : rb.size = size := hfollows.size
  dsimp only at hfull hfollows hu hroom ⊢
  cases op with
  | push data len =>
    cases data with
    | none => exact hfull
    | some data =>
      have hlen : (bytesAt data len).length = len.toNat := by rw [bytesAt, length_map, length_range]
      have hloop := hfollows.has.fullPushLoop full (bytesAt data len)
      rw [hlen, hrb] at hloop
      have hcap : ((size - 1 : Nat) : Int) + 1 = size := by omega
      have hne : len = 0 ∨ len ≠ (size - 1 - stored.length : Nat) := by
        have hu' : len = 0 ∨ len ≠ (rb.size - 1 - rb.used : Nat) := hu
        rwa [hfollows.has.used, hrb] at hu'
      simp only [fullPush, Fifo.step, Fifo.push, hcap, hrb]
      split
      · exact hfull
      · split
        · exact hfull
        · rw [hloop, hfull, length_append, length_take, hlen]
          omega
  | pop len =>
    refine (hfollows.has.fullPop full len.toNat).trans ?_
    rw [hfull, Fifo.step, length_drop, ← length_eq_zero_iff]
    omega
  | flush =>
    refine iff_of_false Bool.false_ne_true ?_
    show 0 ≠ size - 1
    omega
  | isempty => exact hfull

theorem Follows.push_one {size : Nat} {stored : Bytes} (h : Follows size rb stored) (hsize : 2 ≤ size)
    (data : Nat → UInt8) : stored.length = size - 1 ↔ rb.pushFrom (some data) 1 = (0, rb) := by
  have hshort : ¬ asU32 1 > rb.size := by
    rw [h.size]
    show ¬ (1 : Int) > size
    omega
  have hroom := h.has.room
  have hrb : rb.size = size := h.size
  rw [pushFrom, if_neg (by decide), if_neg hshort, show bytesAt data 1 = [data 0] from rfl, pushLoop]
  by_cases hfree : stored.length + 1 < rb.size
  · rw [if_neg (h.has.snoc (data 0) hfree).1]
    refine iff_of_false (by omega) (fun heq => ?_)
    exact absurd (Prod.mk.inj heq).1 (by decide)
  · rw [if_pos (h.has.full hfree)]
    exact iff_of_true (by omega) rfl

/-- **The full test**: in every run whose pushes are never exactly as long as the room, the flag is set if and
only if a push of one byte stores nothing. -/
theorem isfull_exact (size : Nat) (hsize : 2 ≤ size) (ops : List Op)
    (hm : flagMachine.Meets Uneven (init size, false) ops) :
    ∃ rb full trace, flagMachine.run (init size, false) ops = some ((rb, full), trace) ∧
      ∀ data, full = true ↔ rb.pushFrom (some data) 1 = (0, rb) := by
  have hinit : Exact size (init size, false) := by
    have hlen : (init size).size = size := length_replicate
    have hpos : 0 < (init size).size := by omega
    refine ⟨[], ⟨hlen, has_nil rfl rfl hpos⟩, iff_of_false Bool.false_ne_true ?_⟩
    show 0 ≠ size - 1
    omega
  obtain ⟨⟨rb, full⟩, trace, hrun, stored, hfollows, hfull⟩ :=
    flagMachine.run_total Uneven (fun _ => Exact size)
      (fun _ s op h hu => ⟨_, _, rfl, exact_step hsize h hu rfl⟩) hinit hm
  refine ⟨rb, full, trace, hrun, fun data => hfull.trans ?_⟩
  exact hfollows.push_one hsize data

/-- One byte is pushed into a ring of four, and three more that do not fit: the flag is set. -/
theorem isfull_exact_four :
    ∃ rb full trace,
      flagMachine.run (init 4, false) [.push (some fun _ => 1) 1, .push (some fun _ => 2) 3] =
        some ((rb, full), trace) ∧ ∀ data, full = true ↔ rb.pushFrom (some data) 1 = (0, rb) :=
  isfull_exact 4 (by decide) _ (by decide)

/-- One byte fills a ring of two: the flag is clear and a push of one byte stores nothing. -/
theorem isfull_misses :
    ∃ rb trace, flagMachine.run (init 2, false) [.push (some fun _ => 1) 1] = some ((rb, false), trace) ∧
      rb.pushFrom (some fun _ => 2) 1 = (0, rb) :=
  ⟨⟨[0, 1], 0, 1⟩, [(.push (some fun _ => 1) 1, .count 1)], rfl, rfl⟩

end Qumios.Noos.Ringbuf
