import Qumios.Lib.Run

/-! One delayed action (`qm_work.c`, `qm_workqueue.c`).

A post goes into the message queue at once, or starts a timer that puts it there. The
work item remembers its delay and its last timer; a positive delay is taken as the sign
that the timer is the item's own and still there. Neither a post nor a cancel looks at the
queue, and a post does not look at the timer of the one before, so what was pending stays
pending. What is left is an item that is posted while nothing of it is pending, and
cancelled while it is not in the queue. -/
namespace Qumios.Work
open Run List

section
variable {α : Type}

/-- `qm_work_t`, the timers of it that run, and its entries in the message queue. -/
structure State (α : Type) where
  /-- `fn` and `arg`. -/
  action : Option α
  dly : Nat
  /-- The timer that was made last. -/
  timer : Nat
  /-- Whether `wq` is set. -/
  wq : Bool
  started : List Nat
  queue : Nat
  deriving DecidableEq, Repr

def init : State α := ⟨none, 0, 0, false, [], 0⟩

inductive Event (α : Type) where
  /-- `qm_post_delayed_action`, with `none` for an `fn` that is `NULL`. Whether the timer can be made
  and started, or the message queue has room, is up to the system. -/
  | post (action : Option α) (ms : Nat) (made startable room : Bool)
  /-- `qm_cancel_delayed_action`. -/
  | cancel
  /-- `work_timer_cb`, called once by a timer that runs. -/
  | expire (timer : Nat) (room : Bool)
  /-- The worker takes the item out of the queue: `qm_work_handle`. -/
  | work
  deriving DecidableEq, Repr

inductive Output (α : Type) where
  | ret (ok : Bool)
  | quiet
  /-- `work_timer_cb` goes through a `wq` that is `NULL`. -/
  | fault
  | ran (action : Option α)
  deriving DecidableEq, Repr

/-- `qm_timer_stop` and `qm_timer_free` of the item's timer, if it has a delay. -/
def drop (s : State α) : State α :=
  if s.dly > 0 then { s with dly := 0, started := s.started.erase s.timer } else s

/-- `qm_queue_info_generic_send`. -/
def send (s : State α) (room : Bool) : State α := if room then { s with queue := s.queue + 1 } else s

/-- `qm_work_init`: the handle of an earlier timer is written over. -/
def qmWorkInit (s : State α) (action : α) (ms : Nat) (made : Bool) : State α × Bool :=
  let s := { s with action := some action, dly := ms, wq := false }
  if ms > 0 then
    if made then ({ s with timer := s.timer + 1 }, true) else (s, false)
  else (s, true)

/-- `qm_work_sched`. -/
def qmWorkSched (s : State α) (startable room : Bool) : State α × Bool :=
  let s := { s with wq := true }
  if s.dly = 0 then (send s room, room)
  else if startable then ({ s with started := s.started ++ [s.timer] }, true)
  else (s, false)

/-- `qm_post_delayed_action`. -/
def qmPostDelayedAction (s : State α) : Option α → Nat → Bool → Bool → Bool → State α × Bool
  | none, _, _, _, _ => (s, false)
  | some action, ms, made, startable, room =>
    let (s, ok) := qmWorkInit s action ms made
    if ok then qmWorkSched s startable room else (s, false)

/-- `work_timer_cb`. -/
def workTimerCb (s : State α) (room : Bool) : State α × Output α :=
  if s.wq then (send s room, .quiet) else (s, .fault)

/-- `qm_work_handle`. -/
def qmWorkHandle (s : State α) : State α × Output α := (drop s, .ran s.action)

def step (s : State α) : Event α → Option (State α × Output α)
  | .post action ms made startable room =>
    let (s, ok) := qmPostDelayedAction s action ms made startable room
    some (s, .ret ok)
  | .cancel => some (drop s, .ret true)
  | .expire timer room =>
    if timer ∈ s.started then some (workTimerCb { s with started := s.started.erase timer } room) else none
  | .work => if 0 < s.queue then some (qmWorkHandle { s with queue := s.queue - 1 }) else none

def machine (α : Type) : Machine (State α) (Event α) (Output α) := ⟨step⟩

/-! ### What a trace says of the item -/

def posted : Event α × Output α → Bool
  | (.post .., .ret true) => true
  | _ => false

def ran : Event α × Output α → Bool
  | (_, .ran _) => true
  | _ => false

def leaves : Event α × Output α → Bool
  | (.expire .., .quiet) => true
  | (.post none .., .ret false) => true
  | _ => false

variable {x : Event α × Output α} {s : State α}

variable {action : Option α} {trace : List (Event α × Output α)}

theorem ran_of_eq (h : x.2 = .ran action) : ran x = true := by
  obtain ⟨e, o⟩ := x
  cases h
  rfl

theorem ran_of_leaves (h : leaves x = true) : ran x = false := by
  unfold leaves at h
  split at h
  · rfl
  · rfl
  · exact absurd h Bool.false_ne_true

def Armed (trace : List (Event α × Output α)) (action : Option α) : Prop :=
  ∃ before ms made startable room behind,
    trace = before ++ (.post action ms made startable room, .ret true) :: behind ∧ ∀ x ∈ behind, leaves x = true

theorem Armed.of_post (trace : List (Event α × Output α)) (action : Option α) (ms : Nat)
    (made startable room : Bool) : Armed (trace ++ [(.post action ms made startable room, .ret true)]) action :=
  ⟨trace, ms, made, startable, room, [], rfl, fun _ hx => absurd hx not_mem_nil⟩

theorem Armed.snoc (h : Armed trace action) (hx : leaves x = true) : Armed (trace ++ [x]) action := by
  obtain ⟨before, ms, made, startable, room, behind, rfl, hbehind⟩ := h
  exact ⟨before, ms, made, startable, room, behind ++ [x], by simp, forall_snoc hbehind hx⟩

theorem Armed.last (h : Armed (trace ++ [x]) action) : posted x = true ∨ leaves x = true := by
  obtain ⟨before, ms, made, startable, room, behind, heq, hbehind⟩ := h
  obtain ⟨-, rfl, rfl⟩ | ⟨rest, rfl, -⟩ := split_snoc heq
  · exact .inl rfl
  · exact .inr (hbehind x (by simp))

/-- Every run of the action in the trace is of the post that comes last before it, with no cancel and
no other run in between. -/
def RunsArmed (trace : List (Event α × Output α)) : Prop :=
  ∀ before e action behind, trace = before ++ (e, .ran action) :: behind → Armed before action

theorem RunsArmed.snoc (h : RunsArmed trace) (hx : ∀ action, x.2 = .ran action → Armed trace action) :
    RunsArmed (trace ++ [x]) := by
  intro before e action behind heq
  obtain ⟨rfl, rfl, rfl⟩ | ⟨rest, rfl, hrest⟩ := split_snoc heq
  · exact hx action rfl
  · exact h before e action rest hrest

/-! ### Orderly use -/

def State.pending (s : State α) : Nat := s.started.length + s.queue

def Orderly (s : State α) : Event α → Prop
  | .post (some _) .. => s.started = [] ∧ s.queue = 0
  | .cancel => s.queue = 0
  | _ => True

instance (s : State α) : DecidablePred (Orderly s)
  | .post (some _) .. => inferInstanceAs (Decidable (s.started = [] ∧ s.queue = 0))
  | .post none .. => isTrue trivial
  | .cancel => inferInstanceAs (Decidable (s.queue = 0))
  | .expire .. => isTrue trivial
  | .work => isTrue trivial

/-- At most one thing of the item is pending, and a timer that runs is the item's own. -/
structure Sound (s : State α) : Prop where
  single : s.pending ≤ 1
  own : ∀ t ∈ s.started, t = s.timer ∧ 0 < s.dly ∧ s.wq = true

theorem sound_of_idle (hstarted : s.started = []) (hqueue : s.queue = 0) : Sound s ∧ s.pending = 0 := by
  have hpending : s.pending = 0 := by rw [State.pending, hstarted, hqueue]; rfl
  refine ⟨⟨by omega, fun t ht => ?_⟩, hpending⟩
  rw [hstarted] at ht
  exact absurd ht not_mem_nil

theorem Sound.drop_started (h : Sound s) : (drop s).started = [] := by
  have hlength : s.started.length ≤ 1 := (Nat.le_add_right ..).trans h.single
  unfold drop
  match hs : s.started, hlength with
  | [], _ => split <;> simp [hs]
  | [t], _ =>
    obtain ⟨rfl, hdly, -⟩ := h.own t (hs ▸ mem_singleton.mpr rfl)
    rw [if_pos hdly]
    simp

@[simp] theorem drop_queue (s : State α) : (drop s).queue = s.queue := by
  unfold drop
  split <;> rfl

def accepted (ms : Nat) (made startable room : Bool) : Bool := if 0 < ms then made && startable else room

/-- A post while nothing is pending leaves one thing pending, if it succeeds. -/
theorem post_spec (hstarted : s.started = []) (hqueue : s.queue = 0) (action : α) (ms : Nat)
    (made startable room : Bool) : let after := qmPostDelayedAction s (some action) ms made startable room
    Sound after.1 ∧ after.1.action = some action ∧ after.2 = accepted ms made startable room ∧
      after.1.pending = after.2.toNat := by
  unfold qmPostDelayedAction qmWorkInit qmWorkSched send accepted
  rcases Nat.eq_zero_or_pos ms with rfl | hms
  · cases room with
    | false =>
      have hidle := sound_of_idle (s := { s with action := some action, dly := 0, wq := true }) hstarted hqueue
      exact ⟨hidle.1, rfl, rfl, hidle.2⟩
    | true =>
      have hpending : s.started.length + (s.queue + 1) = 1 := by rw [hstarted, hqueue]; rfl
      refine ⟨⟨hpending.le, fun t ht => ?_⟩, rfl, rfl, hpending⟩
      exact absurd (hstarted ▸ ht) not_mem_nil
  · simp only [gt_iff_lt, hms, if_true]
    cases made with
    | false =>
      have hidle := sound_of_idle (s := { s with action := some action, dly := ms, wq := false }) hstarted hqueue
      exact ⟨hidle.1, rfl, rfl, hidle.2⟩
    | true =>
      simp only [if_true, Nat.ne_of_gt hms, if_false]
      cases startable with
      | false =>
        have hidle := sound_of_idle
          (s := { s with action := some action, dly := ms, timer := s.timer + 1, wq := true }) hstarted hqueue
        exact ⟨hidle.1, rfl, rfl, hidle.2⟩
      | true =>
        have hpending : (s.started ++ [s.timer + 1]).length + s.queue = 1 := by rw [hstarted, hqueue]; rfl
        refine ⟨⟨hpending.le, fun t ht => ?_⟩, rfl, rfl, hpending⟩
        simp only [hstarted, nil_append] at ht
        exact ⟨mem_singleton.mp ht, hms, rfl⟩

/-- A timer that runs hands the item on to the queue, or loses it. -/
theorem Sound.expire (h : Sound s) {timer : Nat} (htimer : timer ∈ s.started) (room : Bool) :
    ∃ s', workTimerCb { s with started := s.started.erase timer } room = (s', .quiet) ∧ Sound s' ∧
      s'.action = s.action ∧ s'.pending + (!room).toNat = s.pending := by
  have hlength := length_erase_of_mem htimer
  have hpos := length_pos_of_mem htimer
  have hsingle : s.started.length + s.queue ≤ 1 := h.single
  have hown : ∀ t ∈ s.started.erase timer, t = s.timer ∧ 0 < s.dly ∧ s.wq = true :=
    fun t ht => h.own t (mem_of_mem_erase ht)
  have hcb : workTimerCb { s with started := s.started.erase timer } room =
      (send { s with started := s.started.erase timer } room, .quiet) := if_pos (h.own timer htimer).2.2
  refine ⟨_, hcb, ?_⟩
  unfold send
  cases room with
  | false =>
    have hpending : (s.started.erase timer).length + s.queue + 1 = s.started.length + s.queue := by omega
    exact ⟨⟨by simp only [State.pending, Bool.false_eq_true, if_false]; omega, hown⟩, rfl, hpending⟩
  | true =>
    have hpending : (s.started.erase timer).length + (s.queue + 1) = s.started.length + s.queue := by omega
    exact ⟨⟨by simp only [State.pending, if_true]; omega, hown⟩, rfl, hpending⟩

theorem Sound.handle (h : Sound s) (hqueue : 0 < s.queue) :
    s.pending = 1 ∧ (drop { s with queue := s.queue - 1 }).started = [] ∧
      (drop { s with queue := s.queue - 1 }).queue = 0 := by
  have hsingle : s.started.length + s.queue ≤ 1 := h.single
  have hstarted : s.started = [] := length_eq_zero_iff.mp (by omega)
  refine ⟨?_, ?_, by rw [drop_queue]; show s.queue - 1 = 0; omega⟩
  · show s.started.length + s.queue = 1
    omega
  · unfold drop
    split <;> simp [hstarted]

structure Inv (trace : List (Event α × Output α)) (s : State α) : Prop extends Sound s where
  armed : 0 < s.pending → Armed trace s.action
  counted : trace.countP ran + s.pending ≤ trace.countP posted
  each : RunsArmed trace

theorem inv_init : Inv (α := α) [] init where
  toSound := (sound_of_idle rfl rfl).1
  armed := fun h => absurd h (Nat.lt_irrefl 0)
  counted := Nat.le_refl _
  each := fun _ _ _ _ h => absurd h.symm (by simp)

section Steps
variable {trace : List (Event α × Output α)} {s : State α}

variable {s' : State α}

section
variable (h : Inv trace s)
include h

theorem Inv.idle (hran : ran x = false) (hsound : Sound s') (hpending : s'.pending = 0) : Inv (trace ++ [x]) s' := by
  refine ⟨hsound, fun hp => by omega, ?_, h.each.snoc fun a ha => ?_⟩
  · have hcounted := h.counted
    rw [countP_append, countP_append, countP_singleton, hran, hpending]
    simp only [Bool.false_eq_true, if_false]
    omega
  · exact absurd (ran_of_eq ha) (by simp [hran])

theorem Inv.pass (hx : leaves x = true) (hsound : Sound s') (hpending : s'.pending ≤ s.pending)
    (haction : s'.action = s.action) : Inv (trace ++ [x]) s' := by
  refine ⟨hsound, fun hp => ?_, ?_, h.each.snoc fun a ha => ?_⟩
  · rw [haction]
    exact (h.armed (hp.trans_le hpending)).snoc hx
  · have hcounted := h.counted
    rw [countP_append, countP_append, countP_singleton, ran_of_leaves hx]
    simp only [Bool.false_eq_true, if_false]
    omega
  · exact absurd (ran_of_eq ha) (by simp [ran_of_leaves hx])

theorem Inv.arm {action : Option α} {ms : Nat} {made startable room : Bool} (hsound : Sound s')
    (hpending : s'.pending = 1) (haction : s'.action = action) :
    Inv (trace ++ [(.post action ms made startable room, .ret true)]) s' := by
  refine ⟨hsound, fun _ => ?_, ?_, h.each.snoc fun a ha => by cases ha⟩
  · rw [haction]
    exact .of_post ..
  · have hcounted := h.counted
    rw [countP_append, countP_append, countP_singleton, countP_singleton, hpending]
    simp only [ran, posted, Bool.false_eq_true, if_false, if_true]
    omega

theorem Inv.post (action : α) (ms : Nat) (made startable room : Bool) (hstarted : s.started = [])
    (hqueue : s.queue = 0) :
    Inv (trace ++ [(.post (some action) ms made startable room,
        .ret (qmPostDelayedAction s (some action) ms made startable room).2)])
      (qmPostDelayedAction s (some action) ms made startable room).1 := by
  obtain ⟨hsound, haction, -, hpending⟩ := post_spec hstarted hqueue action ms made startable room
  cases hret : (qmPostDelayedAction s (some action) ms made startable room).2 with
  | false => exact h.idle rfl hsound (by rw [hpending, hret]; rfl)
  | true => exact h.arm hsound (by rw [hpending, hret]; rfl) haction

/-- The worker runs the one entry of the queue. -/
theorem Inv.work (hqueue : 0 < s.queue) :
    Inv (trace ++ [(.work, .ran s.action)]) (drop { s with queue := s.queue - 1 }) := by
  obtain ⟨hone, hstarted, hempty⟩ := h.handle hqueue
  obtain ⟨hsound, hpending⟩ := sound_of_idle hstarted hempty
  refine ⟨hsound, fun hpos => by omega, ?_, h.each.snoc fun a ha => ?_⟩
  · have hcounted := h.counted
    rw [countP_append, countP_append, countP_singleton, countP_singleton, hpending]
    simp only [ran, posted, Bool.false_eq_true, if_false, if_true]
    omega
  · obtain rfl : s.action = a := Output.ran.inj ha
    exact h.armed (by omega)

/-- **What an orderly step keeps.** -/
theorem inv_step {e : Event α} (hc : Orderly s e) {o : Output α} (hstep : (machine α).step s e = some (s', o)) :
    Inv (trace ++ [(e, o)]) s' := by
  cases e with
  | post action ms made startable room =>
    obtain ⟨rfl, rfl⟩ := Prod.mk.inj (Option.some.inj hstep)
    cases action with
    | none => exact h.pass rfl h.toSound le_rfl rfl
    | some action => exact h.post action ms made startable room hc.1 hc.2
  | cancel =>
    obtain ⟨rfl, rfl⟩ := Prod.mk.inj (Option.some.inj hstep)
    obtain ⟨hsound, hpending⟩ := sound_of_idle h.drop_started ((drop_queue s).trans hc)
    exact h.idle rfl hsound hpending
  | expire timer room =>
    simp only [machine, step] at hstep
    split at hstep
    case isTrue htimer =>
      obtain ⟨after, hcb, hsound, haction, hpending⟩ := h.expire htimer room
      rw [hcb] at hstep
      obtain ⟨rfl, rfl⟩ := Prod.mk.inj (Option.some.inj hstep)
      exact h.pass rfl hsound (by omega) haction
    case isFalse => exact absurd hstep (by simp)
  | work =>
    simp only [machine, step] at hstep
    split at hstep
    case isTrue hqueue =>
      obtain ⟨rfl, rfl⟩ := Prod.mk.inj (Option.some.inj hstep)
      exact h.work hqueue
    case isFalse => exact absurd hstep (by simp)
end

end Steps

/-- **An item in orderly use runs at most once per post and never behind a cancel.** Whatever the
interleaving with the timers and the worker, the action is not run more often than posts
succeeded; what is run is the action of the last post, and between the two the item was not posted,
cancelled or run. -/
theorem action_runs_once {events : List (Event α)} {t : State α} {trace : List (Event α × Output α)}
    (hc : (machine α).Meets Orderly init events) (hr : (machine α).run init events = some (t, trace)) :
    trace.countP ran ≤ trace.countP posted ∧ RunsArmed trace := by
  have hinv : Inv trace t := (machine α).run_invariant Orderly Inv
    (fun _ _ _ _ _ h hc hstep => inv_step h hc hstep) inv_init hc hr
  exact ⟨(Nat.le_add_right ..).trans hinv.counted, hinv.each⟩

def cancelledAndPosted : List (Event Bool) :=
  [.post (some false) 100 true true true, .cancel, .post (some true) 50 true true true, .expire 2 true, .work,
    .post (some false) 0 true true true, .work]

theorem action_runs_once_twice : ∃ t trace, (machine Bool).run init cancelledAndPosted = some (t, trace) ∧
    trace.countP ran = 2 ∧ trace.countP ran ≤ trace.countP posted ∧ RunsArmed trace := by
  obtain ⟨⟨t, trace⟩, hr⟩ : ∃ r, (machine Bool).run init cancelledAndPosted = some r :=
    Option.isSome_iff_exists.mp (by decide +kernel)
  have hran : ((machine Bool).run init cancelledAndPosted).map (fun r => r.2.countP ran) = some 2 := by
    decide +kernel
  rw [hr] at hran
  exact ⟨t, trace, hr, Option.some.inj hran, action_runs_once (by decide +kernel) hr⟩

def cancelledInQueue : List (Event Unit) := [.post (some ()) 0 true true true, .cancel, .work]

def postedAgain : List (Event Unit) :=
  [.post (some ()) 100 true true true, .post (some ()) 100 true true true, .expire 1 true, .expire 2 true, .work,
    .work]

/-- **An item in the queue is run although its cancel returned, and an item posted again is run twice
behind its second post**: the entry stays in the queue, and the timer of the first post runs on. -/
theorem runs_behind_cancel :
    (∃ t trace, (machine Unit).run init cancelledInQueue = some (t, trace) ∧ ¬ RunsArmed trace) ∧
      ∃ t trace, (machine Unit).run init postedAgain = some (t, trace) ∧ ¬ RunsArmed trace := by
  refine ⟨⟨_, _, rfl, fun h => ?_⟩, ⟨_, _, rfl, fun h => ?_⟩⟩
  · have harmed : Armed ([_] ++ [_]) _ := h [_, _] _ _ [] rfl
    exact absurd harmed.last (by decide)
  · have harmed : Armed ([_, _, _, _] ++ [_]) _ := h [_, _, _, _, _] _ _ [] rfl
    exact absurd harmed.last (by decide)
end

end Qumios.Work
