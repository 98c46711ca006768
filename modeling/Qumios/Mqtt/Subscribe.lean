import Qumios.Lib.Run

/-! Topics that are to be subscribed, and those that are (`qm_iot_mqtt.c`).

A topic that is registered waits at the head of `pre_sub_list`; a start takes topics from the
tail, a batch at a time, and moves a batch to `sub_list` when it is acknowledged. A lost
connection moves them all back. Read from the tail, both lists are queues: `Book` is what
they are for, and what the calls do is said of it.

A start waits for each acknowledgement in `iot_mqtt_client_yield`, which reports connection events
meanwhile; their handler, or another task, may register topics and start again. So a start is a
frame on a stack, and the answer to its request is an event like the others. A start counts its
topics once, and serves them as it should if nothing comes in between (`Undisturbed`).

Topics that are put back come behind those that still wait. So it is the order in which topics came
to wait that a start keeps to; it is the order of registration as long as no topic waits when the
connection is lost. -/
namespace Qumios.Mqtt
open Run List

section
variable {α : Type}

/-! ### The two lists -/

/-- The topics that wait, and those that are subscribed, in the order they came to it. -/
@[ext] structure Book (α : Type) where
  pending : List α
  subscribed : List α
  deriving DecidableEq, Repr

/-- `CONFIG_QM_IOT_MQTT_TOPIC_SUB_MAX_COUNT`. -/
structure Config where
  maxCount : Nat
  pos : 0 < maxCount

/-- The variables of `qm_iot_mqtt_pre_sub_start` while a request waits for its answer. -/
structure Frame (α : Type) where
  /-- `req_count - j - 1`: the rounds behind this one. -/
  rounds : Nat
  everyCount : Nat
  remainCount : Nat
  batch : List α := []
  /-- History: the lists when it was called, and the batches that were acknowledged. -/
  first : Book α
  acked : List (List α) := []
  deriving DecidableEq, Repr

/-- `pre_sub_list` and `sub_list`, from the head to the tail, and the starts that wait, the innermost first. -/
structure State (α : Type) where
  pre : List α
  sub : List α
  frames : List (Frame α)
  deriving DecidableEq, Repr

def init : State α := ⟨[], [], []⟩

/-- Both lists from the tail on. -/
def State.book (s : State α) : Book α := ⟨s.pre.reverse, s.sub.reverse⟩

/-- `qm_list_rpop`. -/
def rpop (l : List α) : Option α × List α := (l.getLast?, l.dropLast)

/-- `qm_list_lpush`. -/
def lpush (l : List α) : Option α → List α
  | none => l
  | some node => node :: l

/-- `sub_topic_info_move`. -/
def subTopicInfoMove : Nat → State α → State α
  | 0, s => s
  | count + 1, s => subTopicInfoMove count { s with pre := (rpop s.pre).2, sub := lpush s.sub (rpop s.pre).1 }

/-- The loop of `sub_topic_info_reset`, for so many rounds. -/
def resetLoop : Nat → State α → State α
  | 0, s => s
  | rounds + 1, s =>
    match rpop s.sub with
    | (none, _) => s
    | (some node, sub) => resetLoop rounds { s with pre := lpush s.pre (some node), sub := sub }

/-- `sub_topic_info_reset`. -/
def subTopicInfoReset (s : State α) : State α := resetLoop (s.sub.length + 1) s

inductive Ret where
  | eok
  | enomem
  | eempty
  | etimeout
  deriving DecidableEq, Repr

inductive Event (α : Type) where
  /-- `qm_iot_mqtt_pre_sub`. -/
  | preSub (topic : α) (memory : Bool)
  /-- `qm_iot_mqtt_pre_sub_start`, up to its first request. -/
  | start (memory : Bool)
  /-- The innermost request is answered with success, and its start goes on to the next request or returns. -/
  | suback
  | timeout
  /-- `IOT_MQTT_EVENT_DISCONNECT`. -/
  | disconnect
  /-- `IOT_MQTT_EVENT_RECONNECT`, with its result. -/
  | reconnect (success : Bool)
  deriving DecidableEq, Repr

/-- What a call shows; a start that returns shows, of its history, the lists it found and its requests with their
outcome. -/
inductive Output (α : Type) where
  | quiet
  | registered (ret : Ret)
  | requested (batch : List α)
  | returned (ret : Ret) (first : Book α) (batches : List (List α × Bool))
  deriving DecidableEq, Repr

def Frame.batches (f : Frame α) (answer : Bool) : List (List α × Bool) :=
  f.acked.map (fun batch => (batch, true)) ++ [(f.batch, answer)]

/-- A round of the loop up to the wait: `every_count` topics from the tail on. `none` where it reads behind the
list. -/
def request (f : Frame α) (s : State α) : Option (State α × Output α) :=
  let batch := s.pre.reverse.take f.everyCount
  if batch.length < f.everyCount then none
  else some ({ s with frames := { f with batch := batch } :: s.frames }, .requested batch)

/-- `qm_iot_mqtt_pre_sub_start` in front of its loop. -/
def preSubStart (cfg : Config) (memory : Bool) (s : State α) : Option (State α × Output α) :=
  let sumCount := s.pre.length
  if sumCount = 0 then some (s, .returned .eempty s.book [])
  else
    let reqCount :=
      if sumCount % cfg.maxCount ≠ 0 then sumCount / cfg.maxCount + 1 else sumCount / cfg.maxCount
    let count := if reqCount = 1 then sumCount else cfg.maxCount
    if memory then request { rounds := reqCount - 1, everyCount := count, remainCount := sumCount, first := s.book } s
    else some (s, .returned .enomem s.book [])

/-- The variables in the next round. -/
def Frame.next (cfg : Config) (f : Frame α) (rounds : Nat) : Frame α :=
  let remainCount := f.remainCount - f.everyCount
  let everyCount := if remainCount ≥ cfg.maxCount then cfg.maxCount else remainCount
  { f with rounds, everyCount, remainCount, acked := f.acked ++ [f.batch] }

/-- The rest of a round whose request was acknowledged. -/
def acknowledge (cfg : Config) (f : Frame α) (s : State α) : Option (State α × Output α) :=
  let s := subTopicInfoMove f.everyCount s
  match f.rounds with
  | 0 => some (s, .returned .eok f.first (f.batches true))
  | rounds + 1 => request (f.next cfg rounds) s

def step (cfg : Config) (s : State α) : Event α → Option (State α × Output α)
  | .preSub topic memory =>
    if memory then some ({ s with pre := lpush s.pre (some topic) }, .registered .eok)
    else some (s, .registered .enomem)
  | .start memory => preSubStart cfg memory s
  | .suback =>
    match s.frames with
    | [] => none
    | f :: outer => acknowledge cfg f { s with frames := outer }
  | .timeout =>
    match s.frames with
    | [] => none
    | f :: outer => some ({ s with frames := outer }, .returned .etimeout f.first (f.batches false))
  | .disconnect => some (subTopicInfoReset s, .quiet)
  | .reconnect success => some (if success then subTopicInfoReset s else s, .quiet)

def machine (α : Type) (cfg : Config) : Machine (State α) (Event α) (Output α) := ⟨step cfg⟩

/-! ### The queues they are -/

namespace Book

def register (b : Book α) (topic : α) : Book α := { b with pending := b.pending ++ [topic] }

/-- The first `n` topics that wait are subscribed. -/
def move (b : Book α) (n : Nat) : Book α := ⟨b.pending.drop n, b.subscribed ++ b.pending.take n⟩

def reset (b : Book α) : Book α := ⟨b.pending ++ b.subscribed, []⟩

end Book

theorem rpop_reverse_cons (x : α) (l : List α) : rpop (x :: l).reverse = (some x, l.reverse) := by
  simp [rpop]

theorem book_move (n : Nat) (s : State α) :
    (subTopicInfoMove n s).book = s.book.move n ∧ (subTopicInfoMove n s).frames = s.frames := by
  obtain ⟨pre, sub, frames⟩ := s
  -- The queue of the topics that wait, with its first topic where the list has its last.
  obtain ⟨queue, rfl⟩ : ∃ queue, pre = queue.reverse := ⟨pre.reverse, by simp⟩
  induction n generalizing queue sub with
  | zero => simp [subTopicInfoMove, Book.move]
  | succ n ih =>
    cases queue with
    | nil =>
      rw [subTopicInfoMove]
      simpa [rpop, lpush, Book.move, State.book] using ih sub []
    | cons x rest =>
      rw [subTopicInfoMove, rpop_reverse_cons]
      simpa [lpush, Book.move, State.book] using ih (x :: sub) rest

theorem resetLoop_eq (pre queue : List α) (frames : List (Frame α)) (rounds : Nat) (h : queue.length < rounds) :
    resetLoop rounds ⟨pre, queue.reverse, frames⟩ = ⟨queue.reverse ++ pre, [], frames⟩ := by
  induction queue generalizing pre rounds with
  | nil =>
    cases rounds with
    | zero => cases h
    | succ rounds => rfl
  | cons x rest ih =>
    cases rounds with
    | zero => cases h
    | succ rounds =>
      rw [resetLoop, rpop_reverse_cons]
      simpa [lpush] using ih (x :: pre) rounds (by simpa using h)

theorem book_reset (s : State α) :
    (subTopicInfoReset s).book = s.book.reset ∧ (subTopicInfoReset s).frames = s.frames := by
  have heq := resetLoop_eq s.pre s.sub.reverse s.frames (s.sub.length + 1) (by simp)
  rw [reverse_reverse] at heq
  rw [subTopicInfoReset, heq]
  simp [State.book, Book.reset]

variable {cfg : Config} {b : Book α} {s s' : State α} {e : Event α} {o : Output α} {f : Frame α}
  {trace : List (Event α × Output α)}

/-- A request leaves the lists. -/
theorem request_eq_some (h : request f s = some (s', o)) : s'.book = s.book ∧
    s'.frames = { f with batch := s.book.pending.take f.everyCount } :: s.frames ∧
    o = .requested (s.book.pending.take f.everyCount) := by
  unfold request at h
  dsimp only at h
  split at h
  · cases h
  · obtain ⟨rfl, rfl⟩ := Prod.mk.inj (Option.some.inj h)
    exact ⟨rfl, rfl, rfl⟩

theorem request_of_le (h : f.everyCount ≤ s.book.pending.length) : ∃ r, request f s = some r := by
  have hlength : (s.pre.reverse.take f.everyCount).length = f.everyCount := length_take_of_le h
  rw [request]
  simp only [hlength, Nat.lt_irrefl, if_false]
  exact ⟨_, rfl⟩

/-- What an event does to the book. -/
def entered (s : State α) : Event α → Book α
  | .preSub topic true => s.book.register topic
  | .suback => s.book.move (s.frames.head?.elim 0 Frame.everyCount)
  | .disconnect => s.book.reset
  | .reconnect true => s.book.reset
  | _ => s.book

theorem acknowledge_book (h : acknowledge cfg f s = some (s', o)) : s'.book = s.book.move f.everyCount := by
  obtain ⟨hbook, -⟩ := book_move f.everyCount s
  unfold acknowledge at h
  dsimp only at h
  split at h
  · obtain ⟨rfl, -⟩ := Prod.mk.inj (Option.some.inj h)
    exact hbook
  · exact (request_eq_some h).1.trans hbook

theorem preSubStart_book {memory : Bool} (h : preSubStart cfg memory s = some (s', o)) : s'.book = s.book := by
  unfold preSubStart at h
  dsimp only at h
  split at h
  · obtain ⟨rfl, -⟩ := Prod.mk.inj (Option.some.inj h)
    rfl
  · split at h
    · exact (request_eq_some h).1
    · obtain ⟨rfl, -⟩ := Prod.mk.inj (Option.some.inj h)
      rfl

theorem step_entered (h : (machine α cfg).step s e = some (s', o)) : s'.book = entered s e := by
  cases e with
  | preSub topic memory =>
    cases memory with
    | false => cases h; rfl
    | true => cases h; simp [entered, Book.register, State.book, lpush]
  | start memory => exact preSubStart_book h
  | suback =>
    simp only [machine, step] at h
    split at h
    · cases h
    · next f outer hframes =>
      rw [acknowledge_book h, entered, hframes]
      rfl
  | timeout =>
    simp only [machine, step] at h
    split at h
    · cases h
    · obtain ⟨rfl, -⟩ := Prod.mk.inj (Option.some.inj h)
      rfl
  | disconnect => cases h; exact (book_reset s).1
  | reconnect success =>
    cases success with
    | false => cases h; rfl
    | true => cases h; exact (book_reset s).1

/-! ### A start -/

def acknowledged (batches : List (List α × Bool)) : List α := (batches.filter Prod.snd).flatMap Prod.fst

/-- What a start that returns has done to the book. -/
structure Started (cfg : Config) (b : Book α) (batches : List (List α × Bool)) (ret : Ret) (b' : Book α) : Prop where
  /-- The topics that wait are attempted from the first on, each once. -/
  attempted : batches.flatMap Prod.fst <+: b.pending
  sized : ∀ x ∈ batches, 0 < x.1.length ∧ x.1.length ≤ cfg.maxCount
  /-- Those in acknowledged batches, and no others, are moved. -/
  moved : b.pending = acknowledged batches ++ b'.pending ∧ b'.subscribed = b.subscribed ++ acknowledged batches
  complete : ret = .eok → b'.pending = []

/-- A start that waits, while nothing disturbs it: what was acknowledged is moved, and the counts are those of the
topics that still wait. -/
structure Serving (cfg : Config) (b : Book α) (f : Frame α) : Prop where
  pending : f.first.pending = f.acked.flatten ++ b.pending
  subscribed : b.subscribed = f.first.subscribed ++ f.acked.flatten
  sized : ∀ batch ∈ f.acked, 0 < batch.length ∧ batch.length ≤ cfg.maxCount
  batch : f.batch = b.pending.take f.everyCount
  every : f.everyCount = min cfg.maxCount b.pending.length
  remain : f.remainCount = b.pending.length
  needed : f.rounds * cfg.maxCount < b.pending.length
  enough : b.pending.length ≤ f.rounds * cfg.maxCount + cfg.maxCount

namespace Serving

theorem batch_length (h : Serving cfg b f) : f.batch.length = f.everyCount ∧ 0 < f.everyCount := by
  have hpos := cfg.pos
  have hevery := h.every
  have hneeded := h.needed
  exact ⟨by rw [h.batch, length_take_of_le (by omega)], by omega⟩

/-- The answer to the request ends the start. -/
theorem started (h : Serving cfg b f) {answer : Bool} {ret : Ret} {b' : Book α}
    (hmoved : b.pending = (if answer then f.batch else []) ++ b'.pending ∧
      b'.subscribed = b.subscribed ++ if answer then f.batch else [])
    (hret : ret = .eok → b'.pending = []) : Started cfg f.first (f.batches answer) ret b' := by
  obtain ⟨hlength, hpos⟩ := h.batch_length
  have hacked : acknowledged (f.batches answer) = f.acked.flatten ++ if answer then f.batch else [] := by
    cases answer <;> simp [acknowledged, Frame.batches, filter_map, flatMap_map, Function.comp_def]
  refine ⟨?_, ?_, ⟨?_, ?_⟩, hret⟩
  · have hall : (f.batches answer).flatMap Prod.fst = f.acked.flatten ++ f.batch := by
      simp [Frame.batches, flatMap_map]
    rw [hall, h.pending, h.batch]
    exact (prefix_append_right_inj _).mpr ( take_prefix _ _)
  · refine forall_mem_append.mpr ⟨fun x hx => ?_, forall_mem_singleton.mpr ?_⟩
    · obtain ⟨batch, hbatch, rfl⟩ := mem_map.mp hx
      exact h.sized batch hbatch
    · have hevery := h.every
      show 0 < f.batch.length ∧ f.batch.length ≤ cfg.maxCount
      omega
  · rw [hacked, append_assoc, ← hmoved.1, h.pending]
  · rw [hacked, hmoved.2, h.subscribed, append_assoc]

/-- The next round after an acknowledgement. -/
theorem next (h : Serving cfg b f) {rounds : Nat} (hrounds : f.rounds = rounds + 1) :
    Serving cfg (b.move f.everyCount)
      { f.next cfg rounds with batch := (b.move f.everyCount).pending.take (f.next cfg rounds).everyCount } := by
  obtain ⟨hlength, hpos⟩ := h.batch_length
  have hneeded := h.needed
  have henough := h.enough
  rw [hrounds, Nat.succ_mul] at hneeded henough
  have hevery := h.every
  have hremain := h.remain
  have hrest : (b.move f.everyCount).pending.length = b.pending.length - f.everyCount := length_drop
  refine ⟨?_, ?_, ?_, rfl, ?_, ?_, ?_, ?_⟩
  · show f.first.pending = (f.acked ++ [f.batch]).flatten ++ b.pending.drop f.everyCount
    rw [h.pending, flatten_append, flatten_singleton, append_assoc, h.batch, take_append_drop]
  · show b.subscribed ++ b.pending.take f.everyCount = f.first.subscribed ++ (f.acked ++ [f.batch]).flatten
    rw [h.subscribed, flatten_append, flatten_singleton, append_assoc, h.batch]
  · exact forall_mem_append.mpr ⟨h.sized, forall_mem_singleton.mpr ⟨by omega, by omega⟩⟩
  · show (if _ then _ else _) = min cfg.maxCount (b.move f.everyCount).pending.length
    rw [hrest, hremain]
    split <;> omega
  · show f.remainCount - f.everyCount = _
    omega
  · show rounds * cfg.maxCount < _
    omega
  · show _ ≤ rounds * cfg.maxCount + cfg.maxCount
    omega

end Serving

/-- The counts with which a start begins. -/
theorem Serving.begins (cfg : Config) (s : State α) (hsum : s.pre.length ≠ 0) {reqCount count : Nat}
    (hreq : reqCount = if s.pre.length % cfg.maxCount ≠ 0 then s.pre.length / cfg.maxCount + 1
      else s.pre.length / cfg.maxCount) (hcount : count = if reqCount = 1 then s.pre.length else cfg.maxCount) :
    Serving cfg s.book ⟨reqCount - 1, count, s.pre.length, s.book.pending.take count, s.book, []⟩ := by
  have hpos := cfg.pos
  have hlength : s.book.pending.length = s.pre.length := length_reverse
  have hdiv := Nat.div_add_mod s.pre.length cfg.maxCount
  have hmod := Nat.mod_lt s.pre.length hpos
  have hrounds : s.pre.length ≤ reqCount * cfg.maxCount ∧ reqCount * cfg.maxCount < s.pre.length + cfg.maxCount := by
    rw [hreq]
    split
    · rw [Nat.succ_mul, Nat.mul_comm]
      omega
    · rw [Nat.mul_comm]
      omega
  obtain ⟨rounds, hsucc⟩ : ∃ rounds, reqCount = rounds + 1 := Nat.exists_eq_succ_of_ne_zero (by rintro rfl; omega)
  rw [hsucc, Nat.succ_mul] at hrounds
  refine ⟨rfl, (append_nil _).symm, fun _ h => absurd h not_mem_nil, rfl, ?_, hlength.symm, ?_, ?_⟩
  · show count = min cfg.maxCount s.book.pending.length
    rw [hlength, hcount]
    split
    case isTrue hone =>
      obtain rfl : rounds = 0 := by omega
      omega
    case isFalse hmany =>
      have : cfg.maxCount ≤ rounds * cfg.maxCount := Nat.le_mul_of_pos_left _ (by omega)
      omega
  · show (reqCount - 1) * cfg.maxCount < _
    rw [hsucc, Nat.add_sub_cancel]
    omega
  · show _ ≤ (reqCount - 1) * cfg.maxCount + cfg.maxCount
    rw [hsucc, Nat.add_sub_cancel]
    omega

/-! ### Runs -/

def registeredIn : Event α × Output α → List α
  | (.preSub topic _, .registered .eok) => [topic]
  | _ => []

def registered (trace : List (Event α × Output α)) : List α := trace.flatMap registeredIn

theorem registered_snoc (trace : List (Event α × Output α)) (x : Event α × Output α) :
    registered (trace ++ [x]) = registered trace ++ registeredIn x := by
  rw [registered, flatMap_append, flatMap_singleton]
  rfl

/-- What a step registers is what it enters. -/
theorem registeredIn_step (h : (machine α cfg).step s e = some (s', o)) : registeredIn (e, o) =
    match e with
    | .preSub topic true => [topic]
    | _ => [] := by
  cases e with
  | preSub topic memory => cases memory <;> cases h <;> rfl
  | _ => rfl

/-- While a start waits, the answer to its request comes and nothing else. -/
def Undisturbed (s : State α) (e : Event α) : Prop := s.frames = [] ↔ e ≠ .suback ∧ e ≠ .timeout

instance [DecidableEq α] (s : State α) (e : Event α) : Decidable (Undisturbed s e) := inferInstanceAs (Decidable (_ ↔ _))

def Settled (s : State α) : Event α → Prop
  | .disconnect => s.pre = []
  | .reconnect success => success = true → s.pre = []
  | _ => True

theorem perm_move (b : Book α) (n : Nat) :
    ((b.move n).pending ++ (b.move n).subscribed).Perm (b.pending ++ b.subscribed) :=
  calc b.pending.drop n ++ (b.subscribed ++ b.pending.take n)
    _ = (b.pending.drop n ++ b.subscribed) ++ b.pending.take n := (append_assoc ..).symm
    List.Perm _ (b.pending.take n ++ (b.pending.drop n ++ b.subscribed)) := perm_append_comm
    _ = b.pending ++ b.subscribed := by rw [← append_assoc, take_append_drop]

/-- A step adds the topic it registers, and loses none. -/
theorem perm_step (h : (s.book.pending ++ s.book.subscribed).Perm (registered trace))
    (hstep : (machine α cfg).step s e = some (s', o)) :
    (s'.book.pending ++ s'.book.subscribed).Perm (registered (trace ++ [(e, o)])) := by
  rw [step_entered hstep, registered_snoc, registeredIn_step hstep]
  refine List.Perm.trans ?_ (h.append_right _)
  unfold entered
  split
  · simp only [Book.register, append_assoc]
    exact List.Perm.append_left _ perm_append_comm
  · simpa using perm_move s.book _
  · simp [Book.reset]
  · simp [Book.reset]
  next hregister _ _ _ =>
    split
    · exact absurd rfl (hregister _)
    · rw [append_nil]

/-- While no topic waits at a reset, the topics stay in the order they were registered. -/
theorem ordered_step (h : s.book.subscribed ++ s.book.pending = registered trace) (hc : Settled s e)
    (hstep : (machine α cfg).step s e = some (s', o)) :
    s'.book.subscribed ++ s'.book.pending = registered (trace ++ [(e, o)]) := by
  have hreset : s.pre = [] → s.book.reset.subscribed ++ s.book.reset.pending = registered trace := by
    intro hnone
    rw [← h]
    simp [Book.reset, State.book, hnone]
  rw [step_entered hstep, registered_snoc, registeredIn_step hstep]
  cases e with
  | preSub topic memory =>
    cases memory with
    | false => simpa [entered] using h
    | true => simp [entered, Book.register, ← h]
  | start memory => simpa [entered] using h
  | suback => simp [entered, Book.move, ← h]
  | timeout => simpa [entered] using h
  | disconnect => simpa [entered] using hreset hc
  | reconnect success =>
    cases success with
    | false => simpa [entered] using h
    | true => simpa [entered] using hreset (hc rfl)

/-- No start waits, or one does that is served. -/
inductive Waiting (cfg : Config) (s : State α) : Prop where
  | idle (h : s.frames = [])
  | serving {f : Frame α} (h : s.frames = [f]) (hserving : Serving cfg s.book f)

/-- What a start owes when it returns. -/
def Output.Right (cfg : Config) (o : Output α) (b : Book α) : Prop :=
  ∀ ret first batches, o = .returned ret first batches → Started cfg first batches ret b

theorem Started.nothing (cfg : Config) (b : Book α) {ret : Ret} (h : ret ≠ .eok) : Started cfg b [] ret b :=
  ⟨List.nil_prefix, fun _ hx => absurd hx not_mem_nil, ⟨rfl, (append_nil _).symm⟩, fun hret => absurd hret h⟩

/-- A request of a start that is alone. -/
theorem request_waiting (halone : s.frames = [])
    (hserving : Serving cfg s.book { f with batch := s.book.pending.take f.everyCount }) :
    ∃ s' o, request f s = some (s', o) ∧ Waiting cfg s' ∧ o.Right cfg s'.book := by
  have hevery : f.everyCount = min cfg.maxCount s.book.pending.length := hserving.every
  obtain ⟨⟨s', o⟩, hrequest⟩ := request_of_le (f := f) (s := s) (by omega)
  obtain ⟨hbook, hframes, rfl⟩ := request_eq_some hrequest
  rw [halone] at hframes
  exact ⟨s', _, hrequest, .serving hframes (by rwa [hbook]), nofun⟩

/-- **One step** of a start that nothing disturbs: it is never stuck, and a start that returns was right. -/
theorem step_waiting (h : Waiting cfg s) (hc : Undisturbed s e) :
    ∃ s' o, (machine α cfg).step s e = some (s', o) ∧ Waiting cfg s' ∧ o.Right cfg s'.book := by
  cases h with
  | idle hidle =>
    cases e with
    | preSub topic memory =>
      cases memory with
      | false => exact ⟨_, _, rfl, .idle hidle, nofun⟩
      | true => exact ⟨_, _, rfl, .idle hidle, nofun⟩
    | start memory =>
      simp only [machine, step, preSubStart]
      split
      · refine ⟨s, _, rfl, .idle hidle, ?_⟩
        rintro ret first batches ⟨⟩
        exact .nothing cfg s.book nofun
      next hsum =>
      cases memory with
      | false =>
        refine ⟨s, _, rfl, .idle hidle, ?_⟩
        rintro ret first batches ⟨⟩
        exact .nothing cfg s.book nofun
      | true => exact request_waiting hidle (Serving.begins cfg s hsum rfl rfl)
    | suback => exact absurd rfl (hc.mp hidle).1
    | timeout => exact absurd rfl (hc.mp hidle).2
    | disconnect => exact ⟨_, _, rfl, .idle ((book_reset s).2.trans hidle), nofun⟩
    | reconnect success =>
      cases success with
      | false => exact ⟨_, _, rfl, .idle hidle, nofun⟩
      | true => exact ⟨_, _, rfl, .idle ((book_reset s).2.trans hidle), nofun⟩
  | @serving f hframes hserving =>
    have hbusy : s.frames ≠ [] := by rw [hframes]; exact cons_ne_nil _ _
    cases e with
    | suback =>
      obtain ⟨hbook, hrest⟩ := book_move f.everyCount { s with frames := [] }
      simp only [machine, step, hframes, acknowledge]
      split
      · next hrounds =>
        have hevery := hserving.every
        have henough := hserving.enough
        rw [hrounds, Nat.zero_mul, Nat.zero_add] at henough
        have hall : f.batch = s.book.pending := by rw [hserving.batch, take_of_length_le (by omega)]
        have hnone : s.book.pending.drop f.everyCount = [] := drop_of_length_le (by omega)
        refine ⟨_, _, rfl, .idle hrest, ?_⟩
        rintro ret first batches ⟨⟩
        rw [hbook]
        refine hserving.started ⟨?_, ?_⟩ fun _ => hnone
        · show s.book.pending = f.batch ++ s.book.pending.drop f.everyCount
          rw [hnone, append_nil, hall]
        · show s.book.subscribed ++ s.book.pending.take f.everyCount = s.book.subscribed ++ f.batch
          rw [hserving.batch]
      · next rounds hrounds =>
        refine request_waiting hrest ?_
        rw [hbook]
        exact hserving.next hrounds
    | timeout =>
      simp only [machine, step, hframes]
      refine ⟨_, _, rfl, .idle rfl, ?_⟩
      rintro ret first batches ⟨⟩
      exact hserving.started ⟨rfl, (append_nil _).symm⟩ nofun
    | preSub topic memory => exact absurd (hc.mpr ⟨nofun, nofun⟩) hbusy
    | start memory => exact absurd (hc.mpr ⟨nofun, nofun⟩) hbusy
    | disconnect => exact absurd (hc.mpr ⟨nofun, nofun⟩) hbusy
    | reconnect success => exact absurd (hc.mpr ⟨nofun, nofun⟩) hbusy

/-- In every event that may come the start is served: it is not stuck, and what it returns is right. -/
def Serves (cfg : Config) (t : State α) : Prop :=
  ∀ e, Undisturbed t e → ∃ t' o, (machine α cfg).step t e = some (t', o) ∧ o.Right cfg t'.book

def pairs : Config := ⟨2, Nat.zero_lt_two⟩

def lostHalfWay : List (Event Nat) :=
  [.preSub 1 true, .preSub 2 true, .preSub 3 true, .start true, .suback, .timeout, .disconnect, .reconnect true]

def singles : Config := ⟨1, Nat.one_pos⟩

/-- The connection is lost while the second of three requests waits, whose answer was already there. -/
def lostInBetween : List (Event Nat) :=
  [.preSub 1 true, .preSub 2 true, .preSub 3 true, .start true, .suback, .disconnect, .suback, .suback]

/-- The connection comes back while a request waits, and the handler of that event starts anew. -/
def startedInBetween : List (Event Nat) :=
  [.preSub 1 true, .preSub 2 true, .start true, .reconnect true, .start true, .suback, .suback]

def registeredLate : List (Event Nat) :=
  [.preSub 1 true, .start true, .suback, .preSub 2 true, .disconnect, .reconnect true, .start true]

end

end Qumios.Mqtt
