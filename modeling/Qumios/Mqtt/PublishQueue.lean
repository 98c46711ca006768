import Qumios.Lib.Run
import Qumios.Lib.Buffer
import Qumios.Lib.CString

/-! The queue between `qm_iot_mqtt_pub` and the thread that publishes.

A call packs topic and payload into one node at the end of `pub_list`; the thread looks at
the first node, publishes it without the lock and takes it out when that went well. Calls
may come between any two of its steps. What is published is what was accepted, in order
(`published_in_order`), while both lengths fit into their 16 bits. -/
namespace Qumios.Mqtt.Publish
open List

open Run Buffer

structure Message where
  topic : Bytes
  payload : Bytes
  qos : Nat
  deriving DecidableEq, Repr

/-- `qm_iot_mqtt_pub_node_t`, with all the bytes from `data` on. -/
structure PubNode where
  qos : Nat
  topicLen : UInt16
  payloadLen : UInt16
  data : Bytes
  deriving DecidableEq, Repr

/-- The node `qm_iot_mqtt_pub` makes. It comes filled with zeros, of a size that is cut to 32 bits, with
`data` at offset 8 of 12. `none` where a copy writes outside of it. -/
def pubNode (m : Message) : Option PubNode :=
  let size := (12 + m.topic.length + 1 + m.payload.length) % 2 ^ 32 - 8
  let topicLen := UInt16.ofNat m.topic.length
  if m.topic.length ≤ size ∧ topicLen.toNat + 1 + m.payload.length ≤ size then
    some ⟨m.qos, topicLen, UInt16.ofNat m.payload.length,
      splice (splice (List.replicate size 0) 0 m.topic) (topicLen.toNat + 1) m.payload⟩
  else none

/-- What `iot_mqtt_client_publish` is given: the payload is behind the end of the text. -/
def PubNode.message (n : PubNode) : Message :=
  let topic := CString.text n.data
  ⟨topic, (n.data.drop (topic.length + 1)).take n.payloadLen.toNat, n.qos⟩

/-- Where the thread is in its loop. -/
inductive Phase where
  | idle
  | found (n : PubNode)
  | published (n : PubNode)
  deriving DecidableEq, Repr

structure State where
  pubList : List PubNode
  phase : Phase
  deriving DecidableEq, Repr

inductive Event where
  | pub (m : Message) (text : 0 ∉ m.topic)
  /-- A call that gets no memory for its node. -/
  | pubNoMemory
  | look
  | publish (ok : Bool)
  | remove

inductive Output where
  | quiet
  | accepted (m : Message)
  | sent (m : Message)
  deriving DecidableEq, Repr

def step (s : State) : Event → Option (State × Output)
  | .pub m _ => (pubNode m).map fun n => ({ s with pubList := s.pubList ++ [n] }, .accepted m)
  | .pubNoMemory => some (s, .quiet)
  | .look =>
    match s.phase, s.pubList with
    | .idle, [] => some (s, .quiet)
    | .idle, n :: _ => some ({ s with phase := .found n }, .quiet)
    | _, _ => none
  | .publish ok =>
    match s.phase with
    | .found n => if ok then some ({ s with phase := .published n }, .sent n.message)
      else some ({ s with phase := .idle }, .quiet)
    | _ => none
  | .remove =>
    match s.phase with
    | .published n => some (⟨s.pubList.erase n, .idle⟩, .quiet)
    | _ => none

def machine : Machine State Event Output := ⟨step⟩

def Output.acceptedIn : Output → List Message
  | .accepted m => [m]
  | _ => []

def Output.sentIn : Output → List Message
  | .sent m => [m]
  | _ => []

def accepted (trace : List (Event × Output)) : List Message := trace.flatMap (·.2.acceptedIn)

def sent (trace : List (Event × Output)) : List Message := trace.flatMap (·.2.sentIn)

/-- The lengths of a call fit into the node's fields. -/
def Short (_ : State) : Event → Prop
  | .pub m _ => m.topic.length < 65536 ∧ m.payload.length < 65536
  | _ => True

instance (s : State) : ∀ e, Decidable (Short s e)
  | .pub _ _ => inferInstanceAs (Decidable (_ ∧ _))
  | .pubNoMemory | .look | .publish _ | .remove => isTrue trivial

variable {m : Message} {past : List (Event × Output)}

theorem pubNode_short (htext : 0 ∉ m.topic) (ht : m.topic.length < 65536) (hp : m.payload.length < 65536) :
    ∃ n, pubNode m = some n ∧ n.message = m := by
  have hsize : (12 + m.topic.length + 1 + m.payload.length) % 2 ^ 32 - 8 = m.topic.length + (5 + m.payload.length) := by
    omega
  have htopic : (UInt16.ofNat m.topic.length).toNat = m.topic.length := UInt16.toNat_ofNat_of_lt' ht
  have hpayload : (UInt16.ofNat m.payload.length).toNat = m.payload.length := UInt16.toNat_ofNat_of_lt' hp
  unfold pubNode
  simp only [hsize, htopic]
  rw [if_pos (by omega)]
  refine ⟨_, rfl, ?_⟩
  have hdata : splice (splice (replicate (m.topic.length + (5 + m.payload.length)) 0) 0 m.topic)
      (m.topic.length + 1) m.payload = m.topic ++ 0 :: (m.payload ++ replicate 4 0) := by
    have hfirst : splice (replicate (m.topic.length + (5 + m.payload.length)) 0) 0 m.topic =
        m.topic ++ replicate (5 + m.payload.length) 0 := by
      simp [splice]
    rw [hfirst, splice_append, splice, take_replicate, drop_replicate, Nat.min_eq_left (by omega),
      show 5 + m.payload.length - (1 + m.payload.length) = 4 by omega]
    simp
  have hend : CString.text (m.topic ++ 0 :: (m.payload ++ replicate 4 0)) = m.topic := by
    rw [CString.text, takeWhile_append_of_pos]
    · simp
    · exact fun c hc => decide_eq_true fun hzero => htext (hzero ▸ hc)
  rw [hdata, PubNode.message]
  simp only [hend, hpayload]
  rw [drop_append, drop_of_length_le (Nat.le_succ _), Nat.add_sub_cancel_left]
  simp

/-- What the thread has still to publish. -/
def State.rest (s : State) : List PubNode :=
  match s.phase with
  | .published _ => s.pubList.tail
  | _ => s.pubList

/-- The thread's node is the first one, and what was accepted was sent or is in the list. -/
structure Inv (trace : List (Event × Output)) (s : State) : Prop where
  queue : accepted trace = sent trace ++ s.rest.map PubNode.message
  first : ∀ n, s.phase = .found n ∨ s.phase = .published n → ∃ others, s.pubList = n :: others

/-- A step that moves the list and the outputs together keeps the queue. -/
theorem queue_snoc {s s' : State} {e : Event} {o : Output} (h : Inv past s)
    (hmove : s.rest.map PubNode.message ++ o.acceptedIn = o.sentIn ++ s'.rest.map PubNode.message) :
    accepted (past ++ [(e, o)]) = sent (past ++ [(e, o)]) ++ s'.rest.map PubNode.message := by
  have hqueue := h.queue
  simp only [accepted, sent, flatMap_append, flatMap_singleton] at hqueue ⊢
  rw [hqueue, append_assoc, append_assoc, hmove]

theorem rest_push (s : State) (n : PubNode) (h : ∀ k, s.phase = .published k → s.pubList ≠ []) :
    State.rest { s with pubList := s.pubList ++ [n] } = s.rest ++ [n] := by
  obtain ⟨pubList, phase⟩ := s
  cases phase with
  | idle | found _ => rfl
  | published k => exact tail_append_of_ne_nil (h k rfl)

theorem inv_step {s s' : State} {e : Event} {o : Output} (h : Inv past s) (hc : Short s e)
    (hs : step s e = some (s', o)) : Inv (past ++ [(e, o)]) s' := by
  cases e with
  | pub m htext =>
    obtain ⟨n, hnode, hmessage⟩ := pubNode_short htext hc.1 hc.2
    simp only [step, hnode, Option.map_some, Option.some.injEq, Prod.mk.injEq] at hs
    obtain ⟨rfl, rfl⟩ := hs
    refine ⟨?_, fun k hk => ?_⟩
    · refine queue_snoc h ?_
      rw [rest_push s n fun k hk => by obtain ⟨_, heq⟩ := h.first k (.inr hk); simp [heq]]
      simp [Output.acceptedIn, Output.sentIn, hmessage]
    · obtain ⟨others, heq⟩ := h.first k hk
      exact ⟨others ++ [n], by simp [heq]⟩
  | pubNoMemory =>
    cases hs
    exact ⟨queue_snoc h (append_nil _), h.first⟩
  | look =>
    obtain ⟨pubList, phase⟩ := s
    cases phase with
    | found _ | published _ => simp [step] at hs
    | idle =>
      cases pubList <;> cases hs
      · exact ⟨queue_snoc h (append_nil _), h.first⟩
      · exact ⟨queue_snoc h (append_nil _), by rintro k (hk | hk) <;> cases hk; exact ⟨_, rfl⟩⟩
  | publish ok =>
    obtain ⟨pubList, phase⟩ := s
    cases phase with
    | idle | published _ => simp [step] at hs
    | found n =>
      obtain ⟨others, rfl⟩ := h.first n (.inl rfl)
      cases ok <;> cases hs
      · exact ⟨queue_snoc h (append_nil _), by rintro k (hk | hk) <;> cases hk⟩
      · exact ⟨queue_snoc h (by simp [Output.acceptedIn, Output.sentIn, State.rest]),
          by rintro k (hk | hk) <;> cases hk; exact ⟨_, rfl⟩⟩
  | remove =>
    obtain ⟨pubList, phase⟩ := s
    cases phase with
    | idle | found _ => simp [step] at hs
    | published n =>
      obtain ⟨others, rfl⟩ := h.first n (.inr rfl)
      cases hs
      exact ⟨queue_snoc h (by simp [Output.acceptedIn, Output.sentIn, State.rest]), by rintro k (hk | hk) <;> cases hk⟩

/-- **The queue keeps its messages**: in every run of calls whose topics and payloads are shorter than
65536 bytes, with the thread's steps and any failures between them, the messages published are the first
ones accepted, in order and unchanged. -/
theorem published_in_order {events : List Event} {s : State} {trace : List (Event × Output)}
    (hc : machine.Meets Short ⟨[], .idle⟩ events) (hr : machine.run ⟨[], .idle⟩ events = some (s, trace)) :
    sent trace <+: accepted trace := by
  have hinv := machine.run_invariant Short Inv (fun _ _ _ _ _ h hc hs => inv_step h hc hs)
    ⟨rfl, by rintro n (h | h) <;> cases h⟩ hc hr
  exact ⟨_, hinv.queue.symm⟩

def hello : Message := ⟨[97, 98], [1, 0, 2], 1⟩

theorem hello_text : 0 ∉ hello.topic := by decide

/-- Two calls; the first one is published at the second attempt. -/
def helloTwice : List Event :=
  [.pub hello hello_text, .look, .publish false, .look, .pub hello hello_text, .publish true, .remove]

theorem published_in_order_twice : ∃ s trace, machine.run ⟨[], .idle⟩ helloTwice = some (s, trace) ∧
    sent trace = [hello] ∧ sent trace <+: accepted trace :=
  ⟨_, _, rfl, by decide +kernel, @published_in_order helloTwice _ _ (by decide +kernel) rfl⟩

/-- One byte more than the length of the payload can say. -/
def long : Message := ⟨[97], List.replicate 65536 1, 0⟩

theorem long_text : 0 ∉ long.topic := by decide

theorem long_length : long.payload.length = 65536 := length_replicate

theorem pubNode_length (ht : m.topic.length = 1) (hp : m.payload.length = 65536) :
    ∃ n, pubNode m = some n ∧ n.payloadLen = 0 := by
  simp only [pubNode, ht, hp]
  rw [if_pos (by decide)]
  exact ⟨_, rfl, (by decide : UInt16.ofNat 65536 = 0)⟩

theorem run_first {n : PubNode} (htext : 0 ∉ m.topic) (hnode : pubNode m = some n) :
    machine.run ⟨[], .idle⟩ [.pub m htext, .look, .publish true] = some (⟨[n], .published n⟩,
      [(.pub m htext, .accepted m), (.look, .quiet), (.publish true, .sent n.message)]) := by
  simp [Machine.run, machine, step, hnode]

/-- The message of 65536 bytes is accepted, and published without a payload. -/
theorem long_payload_lost : ∃ s trace,
    machine.run ⟨[], .idle⟩ [.pub long long_text, .look, .publish true] = some (s, trace) ∧
      ¬ sent trace <+: accepted trace := by
  obtain ⟨n, hnode, hlen⟩ := pubNode_length rfl long_length
  refine ⟨_, _, run_first long_text hnode, fun hprefix => ?_⟩
  have hsame : n.message = long := by
    simpa [sent, accepted, Output.sentIn, Output.acceptedIn] using hprefix
  have hnone : n.message.payload = [] := by
    rw [PubNode.message, hlen]
    rfl
  have hlong := long_length
  rw [← hsame, hnone] at hlong
  exact absurd hlong (by decide)

end Qumios.Mqtt.Publish
