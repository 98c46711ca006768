import Qumios.MultiTimer.Timers

/-! What a step does to the lists.

As long as every timer is in at most one list, the links spell two lists, and each
call does to them what it is there for (`Effect`): if a timer that is started again is
in no other list than the one it goes to, and a timer that is stopped is in the list
its `list` points to (`Straight`). Neither is checked by the code. -/
namespace Qumios.MultiTimer
open Run Linked Links Function

/-- The lists the links spell. -/
structure Lists {n : Nat} (l : Links Which (Fin n)) (ls : Which → List (Fin n)) : Prop where
  holds : ∀ w, l.Holds w (ls w)
  apart : ∀ i w w', i ∈ ls w → i ∈ ls w' → w = w'

section Lists
variable {n : Nat} {l : Links Which (Fin n)} {ls : Which → List (Fin n)} {i : Fin n} {w : Which}

theorem Lists.length_lt (h : Lists l ls) (w : Which) : (ls w).length < n + 1 :=
  Nat.lt_succ_of_le (h.holds w).length_le

theorem Lists.nodup (h : Lists l ls) (w : Which) : (ls w).Nodup := (h.holds w).nodup

theorem Lists.members_eq {s : State n} (h : Lists s.links ls) (w : Which) : s.members w = ls w :=
  Chain.walk_eq (h.holds w) (h.length_lt w).le

section
variable (h : Lists l ls)
include h

theorem Lists.head_none : l.head w = none ↔ ls w = [] := by
  have hc := h.holds w
  cases hls : ls w with
  | nil => simpa [hls, Holds, Chain] using hc
  | cons i rest =>
    rw [hls] at hc
    simp [hc.1]

theorem Lists.head_some (hi : l.head w = some i) : ∃ rest, ls w = i :: rest := by
  have hc := h.holds w
  cases hls : ls w with
  | nil =>
    rw [hls] at hc
    exact absurd (hi.symm.trans hc) (by simp)
  | cons j rest =>
    rw [hls] at hc
    exact ⟨rest, by rw [Option.some.inj (hi.symm.trans hc.1)]⟩

/-- One list with others in its place. -/
theorem Lists.update {l' : Links Which (Fin n)} {xs : List (Fin n)} (hw : l'.Holds w xs)
    (hrest : ∀ w', w' ≠ w → l'.Holds w' (ls w')) (hxs : ∀ j ∈ xs, ∀ w', j ∈ ls w' → w' = w) :
    Lists l' (Function.update ls w xs) := by
  refine ⟨fun w' => ?_, fun j w1 w2 h1 h2 => ?_⟩
  · by_cases hw' : w' = w
    · subst hw'
      rwa [update_self]
    · rw [update_of_ne hw']
      exact hrest w' hw'
  · by_cases e1 : w1 = w
    · by_cases e2 : w2 = w
      · rw [e1, e2]
      · rw [update_of_ne e2] at h2
        rw [e1, update_self] at h1
        rw [e1, hxs j h1 w2 h2]
    · rw [update_of_ne e1] at h1
      by_cases e2 : w2 = w
      · rw [e2, update_self] at h2
        rw [e2, hxs j h2 w1 h1]
      · rw [update_of_ne e2] at h2
        exact h.apart j w1 w2 h1 h2

theorem Lists.unlink (i : Fin n) (w : Which) :
    ∃ l', Links.unlink i (n + 1) (.head w) l = some l' ∧ Lists l' (Function.update ls w ((ls w).erase i)) := by
  have hc : Chain l.next (l.get (.head w)) (ls w) := h.holds w
  obtain ⟨l', hl', hc, hframe⟩ := unlink_spec (i := i) hc (fun p _ heq => by cases heq) (h.length_lt w)
  refine ⟨l', hl', h.update hc (fun w' hw' => (h.holds w').frame hw' hframe fun j hj hjw => hw' (h.apart j w' w hj hjw)) ?_⟩
  intro j hj w' hjw'
  exact h.apart j w' w hjw' (List.mem_of_mem_erase hj)

/-- A timer in no list is put into one. -/
theorem Lists.link (hi : ∀ w', i ∉ ls w') (before : Fin n → Bool) (w : Which) :
    ∃ l', Links.link i before (n + 1) (.head w) l = some l' ∧ Lists l' (Function.update ls w (place i before (ls w))) := by
  have hc : Chain l.next (l.get (.head w)) (ls w) := h.holds w
  obtain ⟨l', hl', hc, hframe⟩ := link_spec before hc (fun p _ heq => by cases heq) (hi w) (h.length_lt w)
  refine ⟨l', hl', h.update hc (fun w' hw' => (h.holds w').frame hw' hframe fun j hj hjw => ?_) ?_⟩
  · rcases List.mem_cons.mp hjw with rfl | hjw
    · exact hi w' hj
    · exact hw' (h.apart j w' w hj hjw)
  · intro j hj w' hjw'
    rcases mem_place.mp hj with rfl | hj
    · exact absurd hjw' (hi w')
    · exact h.apart j w' w hjw' hj

theorem Lists.pop {rest : List (Fin n)} (hw : ls w = i :: rest) :
    Lists (l.set (.head w) (l.next i)) (Function.update ls w rest) := by
  have hc := h.holds w
  rw [hw] at hc
  refine h.update ?_ (fun w' hw' => ?_) fun j hj w' hjw' => h.apart j w' w hjw' (by rw [hw]; exact List.mem_cons_of_mem i hj)
  · rw [Holds, show (l.set (.head w) (l.next i)).head w = l.next i from get_set_self (l := l) (s := .head w)]
    exact hc.2
  · have hhead : (l.set (.head w) (l.next i)).head w' = l.head w' := get_set_ne fun heq => hw' (Slot.head.inj heq)
    rw [Holds, hhead]
    exact h.holds w'

end

/-- The lists after `timer_list_switch`, of which the first one was empty. -/
def switched (ls : Which → List (Fin n)) : Which → List (Fin n)
  | .timerList => ls .overflowTimerList
  | .overflowTimerList => []

theorem Lists.switch {s : State n} (h : Lists s.links ls) : Lists (timerListSwitch s).links (switched ls) := by
  refine ⟨fun w => ?_, fun i w w' hi hi' => ?_⟩
  · cases w with
    | timerList => exact h.holds .overflowTimerList
    | overflowTimerList => exact rfl
  · cases w with
    | timerList =>
      cases w' with
      | timerList => rfl
      | overflowTimerList => cases hi'
    | overflowTimerList => cases hi

end Lists

/-! ### Calls -/

section Calls
variable {n : Nat} {s : State n} {ls : Which → List (Fin n)} {i : Fin n}

def Timer.queued (t : Timer) (nowTime : Nat) : Timer :=
  { t with delay := u32 (t.period + nowTime), list := some (target t.period nowTime) }

/-- The state after `timer_insert`, up to the links. -/
def State.queued (s : State n) (i : Fin n) (nowTime : Nat) (links : Links Which (Fin n)) : State n :=
  { s with links := links, timers := Function.update s.timers i ((s.timers i).queued nowTime) }

def State.delayAfter (s : State n) (i : Fin n) (nowTime : Nat) (j : Fin n) : Nat :=
  if j = i then u32 ((s.timers i).period + nowTime) else (s.timers j).delay

def queue (s : State n) (ls : Which → List (Fin n)) (i : Fin n) (nowTime : Nat) : Which → List (Fin n) :=
  let w := target (s.timers i).period nowTime
  Function.update ls w (place i (fun m => s.delayAfter i nowTime i < s.delayAfter i nowTime m) ((ls w).erase i))

section Queued
variable (s : State n) (i j : Fin n) (nowTime : Nat) (links : Links Which (Fin n))

theorem queued_timers : (s.queued i nowTime links).timers j = if j = i then (s.timers i).queued nowTime else s.timers j := by
  by_cases hj : j = i
  · subst hj
    simp [State.queued]
  · simp [State.queued, hj]

@[simp] theorem queued_delay : ((s.queued i nowTime links).timers j).delay = s.delayAfter i nowTime j := by
  rw [queued_timers, State.delayAfter]
  split <;> rfl

@[simp] theorem queued_period : ((s.queued i nowTime links).timers j).period = (s.timers j).period := by
  rw [queued_timers]
  split
  · next hj => rw [hj]; rfl
  · rfl

@[simp] theorem queued_autoReload : ((s.queued i nowTime links).timers j).autoReload = (s.timers j).autoReload := by
  rw [queued_timers]
  split
  · next hj => rw [hj]; rfl
  · rfl

@[simp] theorem queued_list : ((s.queued i nowTime links).timers j).list =
    if j = i then some (target (s.timers i).period nowTime) else (s.timers j).list := by
  rw [queued_timers]
  split <;> rfl

@[simp] theorem queued_yields : (s.queued i nowTime links).yields = s.yields := rfl

end Queued

variable {j : Fin n} {w : Which} {nowTime : Nat}

theorem mem_of_mem_queue (h : j ∈ queue s ls i nowTime w) : j = i ∨ j ∈ ls w := by
  by_cases hw : w = target (s.timers i).period nowTime
  · subst hw
    rw [queue, update_self] at h
    exact (mem_place.mp h).imp_right List.mem_of_mem_erase
  · rw [queue, update_of_ne hw] at h
    exact .inr h

theorem mem_queue (hnodup : ∀ w, (ls w).Nodup) (hi : ∀ w, i ∈ ls w → w = target (s.timers i).period nowTime) :
    j ∈ queue s ls i nowTime w ↔ if j = i then w = target (s.timers i).period nowTime else j ∈ ls w := by
  by_cases hw : w = target (s.timers i).period nowTime
  · subst hw
    rw [queue, update_self, mem_place, (hnodup _).mem_erase_iff]
    by_cases hj : j = i <;> simp [hj]
  · rw [queue, update_of_ne hw]
    by_cases hj : j = i
    · subst hj
      simp only [if_true, hw, iff_false]
      exact fun hmem => hw (hi w hmem)
    · rw [if_neg hj]

/-- Sorted lists stay sorted: the timer gets its new deadline outside of all but the list it goes to. -/
theorem pairwise_queue (hnodup : ∀ w, (ls w).Nodup)
    (hsorted : ∀ w, (ls w).Pairwise fun a b => (s.timers a).delay ≤ (s.timers b).delay)
    (hi : ∀ w, i ∈ ls w → w = target (s.timers i).period nowTime) (w : Which) :
    (queue s ls i nowTime w).Pairwise fun a b => s.delayAfter i nowTime a ≤ s.delayAfter i nowTime b := by
  have hother (j : Fin n) (hj : j ≠ i) : s.delayAfter i nowTime j = (s.timers j).delay := if_neg hj
  have hrest (xs : List (Fin n)) (hsub : xs.Sublist (ls w)) (hxs : i ∉ xs) :
      xs.Pairwise fun a b => s.delayAfter i nowTime a ≤ s.delayAfter i nowTime b := by
    refine ((hsorted w).sublist hsub).imp_of_mem fun ha hb hle => ?_
    rwa [hother _ fun heq => hxs (by rw [← heq]; exact ha), hother _ fun heq => hxs (by rw [← heq]; exact hb)]
  by_cases hw : w = target (s.timers i).period nowTime
  · subst hw
    rw [queue, update_self]
    exact pairwise_place (hrest _ List.erase_sublist (hnodup _).not_mem_erase)
  · rw [queue, update_of_ne hw]
    exact hrest _ (List.Sublist.refl _) fun hmem => hw (hi w hmem)

theorem timerInsert_spec (h : Lists s.links ls) (nowTime : Nat)
    (hi : ∀ w, i ∈ ls w → w = target (s.timers i).period nowTime) :
    ∃ links, timerInsert s i nowTime = some (s.queued i nowTime links) ∧ Lists links (queue s ls i nowTime) := by
  obtain ⟨w, hw⟩ : ∃ w, w = target (s.timers i).period nowTime := ⟨_, rfl⟩
  obtain ⟨l1, hl1, h1⟩ := h.unlink i w
  have hout (w' : Which) : i ∉ Function.update ls w ((ls w).erase i) w' := by
    by_cases hw' : w' = w
    · subst hw'
      rw [update_self]
      exact (h.holds w').nodup.not_mem_erase
    · rw [update_of_ne hw']
      exact fun hmem => hw' ((hi w' hmem).trans hw.symm)
  obtain ⟨l2, hl2, h2⟩ := h1.link hout (fun m => s.delayAfter i nowTime i < s.delayAfter i nowTime m) w
  rw [update_self, update_idem] at h2
  have hdelay (j : Fin n) : ((s.setTimer i { s.timers i with delay := u32 ((s.timers i).period + nowTime) }).timers j).delay =
      s.delayAfter i nowTime j := by
    by_cases hj : j = i
    · subst hj
      simp [State.setTimer, State.delayAfter]
    · simp [State.setTimer, State.delayAfter, hj]
  refine ⟨l2, ?_, by rw [queue, ← hw]; exact h2⟩
  have hperiod : ((s.setTimer i { s.timers i with delay := u32 ((s.timers i).period + nowTime) }).timers i).period =
      (s.timers i).period := by simp [State.setTimer]
  simp only [timerInsert, timerListInsert, hdelay, hperiod, ← hw]
  rw [show (s.setTimer i { s.timers i with delay := u32 ((s.timers i).period + nowTime) }).links = s.links from rfl, hl1]
  simp only [hl2]
  simp [State.setTimer, State.queued, Timer.queued, State.delayAfter, hw]

/-- The state after `multi_timer_delete`, up to the links. -/
def State.unqueued (s : State n) (i : Fin n) (links : Links Which (Fin n)) : State n :=
  { s with links := links, timers := Function.update s.timers i { s.timers i with list := none } }

def unqueue (ls : Which → List (Fin n)) (i : Fin n) : Which → List (Fin n) := fun w => (ls w).erase i

theorem mem_unqueue (hnodup : ∀ w, (ls w).Nodup) : j ∈ unqueue ls i w ↔ j ≠ i ∧ j ∈ ls w :=
  (hnodup w).mem_erase_iff

theorem multiTimerDelete_spec (h : Lists s.links ls) (hi : ∀ w, i ∈ ls w → (s.timers i).list = some w) :
    ∃ links, multiTimerDelete s i = some (s.unqueued i links) ∧ Lists links (unqueue ls i) := by
  rw [multiTimerDelete]
  cases hlist : (s.timers i).list with
  | none =>
    have hnone (w : Which) : i ∉ ls w := fun hmem => by
      have := hi w hmem
      rw [hlist] at this
      cases this
    refine ⟨s.links, ?_, ?_⟩
    · have hsame : { s.timers i with list := none } = s.timers i := by rw [← hlist]
      rw [State.unqueued, hsame, update_eq_self]
    · rw [show unqueue ls i = ls from funext fun w => List.erase_of_not_mem (hnone w)]
      exact h
  | some w =>
    obtain ⟨l', hl', h'⟩ := h.unlink i w
    refine ⟨l', by simp only [hl']; rfl, ?_⟩
    have hsame : Function.update ls w ((ls w).erase i) = unqueue ls i := by
      funext w'
      by_cases hw : w' = w
      · subst hw
        exact update_self ..
      · rw [update_of_ne hw]
        refine (List.erase_of_not_mem fun hmem => hw ?_).symm
        exact Option.some.inj ((hi w' hmem).symm.trans hlist)
    rw [← hsame]
    exact h'

/-- The state `multi_timer_change` starts the timer in. -/
def State.recreated (s : State n) (i : Fin n) (ms : Nat) (links : Links Which (Fin n)) : State n :=
  multiTimerCreat (s.unqueued i links) i ms ((s.unqueued i links).timers i).callback
    ((s.unqueued i links).timers i).autoReload

theorem Lists.creat (h : Lists s.links ls) (hi : ∀ w, i ∉ ls w) (ms : Nat) (callback autoReload : Bool) :
    Lists (multiTimerCreat s i ms callback autoReload).links ls := by
  refine ⟨fun w => ?_, h.apart⟩
  refine Chain.congr (h.holds w) fun j hj => ?_
  have hne : (s.links.set (.next i) none).get (.next j) = s.links.get (.next j) :=
    get_set_ne fun heq => hi w (by rw [← Slot.next.inj heq]; exact hj)
  exact hne

theorem multiTimerChange_spec (h : Lists s.links ls) (ms : Nat) (hi : ∀ w, i ∈ ls w → (s.timers i).list = some w) :
    ∃ links links', multiTimerChange s i ms = some ((s.recreated i ms links).queued i s.now links') ∧
      Lists (s.recreated i ms links).links (unqueue ls i) ∧
      Lists links' (queue (s.recreated i ms links) (unqueue ls i) i s.now) := by
  obtain ⟨links, hdel, hlists⟩ := multiTimerDelete_spec h hi
  have hout (w : Which) : i ∉ unqueue ls i w := fun hmem => ((mem_unqueue h.nodup).mp hmem).1 rfl
  have hcreat : Lists (s.recreated i ms links).links (unqueue ls i) := 
    Lists.creat (s := s.unqueued i links) hlists hout ms _ _
  obtain ⟨links', hins, hlists'⟩ := timerInsert_spec hcreat s.now fun w hmem => absurd hmem (hout w)
  refine ⟨links, links', ?_, hcreat, hlists'⟩
  rw [multiTimerChange, hdel]
  exact hins

end Calls

/-! ### Steps -/

section Steps
variable {n : Nat} {s : State n} {ls : Which → List (Fin n)}

/-- A timer that is started is in no other list than it goes to, and a timer that is stopped
is in the list its `list` points to. -/
def Straight (s : State n) : Event n → Prop
  | .start i => ∀ w, i ∈ s.members w → w = target (s.timers i).period s.now
  | .stop i => ∀ w, i ∈ s.members w → (s.timers i).list = some w
  | .change i _ => ∀ w, i ∈ s.members w → (s.timers i).list = some w
  | _ => True

instance : ∀ e : Event n, Decidable (Straight s e)
  | .tick _ => inferInstanceAs (Decidable True)
  | .start _ => inferInstanceAs (Decidable (∀ _, _))
  | .stop _ => inferInstanceAs (Decidable (∀ _, _))
  | .change _ _ => inferInstanceAs (Decidable (∀ _, _))
  | .yield => inferInstanceAs (Decidable True)
  | .resume => inferInstanceAs (Decidable True)

def Enabled (s : State n) : Event n → Prop
  | .tick _ => True
  | .resume => s.yields ≠ []
  | _ => s.free = true

instance : ∀ e : Event n, Decidable (Enabled s e)
  | .tick _ => inferInstanceAs (Decidable True)
  | .start _ => inferInstanceAs (Decidable (_ = _))
  | .stop _ => inferInstanceAs (Decidable (_ = _))
  | .change _ _ => inferInstanceAs (Decidable (_ = _))
  | .yield => inferInstanceAs (Decidable (_ = _))
  | .resume => inferInstanceAs (Decidable (_ ≠ _))

def State.popped (s : State n) (i : Fin n) : State n :=
  { s with links := s.links.set (.head .timerList) (s.links.next i) }

def State.called (s : State n) (y : Yield) (rest : List Yield) (i : Fin n) : State n :=
  { s with yields := { y with inCallback := (s.timers i).callback } :: rest }

/-- What a step does, to the state and to the lists. -/
inductive Effect (s : State n) (ls : Which → List (Fin n)) :
    Event n → State n → Output n → (Which → List (Fin n)) → Prop
  | tick (ms : Nat) : Effect s ls (.tick ms) { s with clock := s.clock + ms } .quiet ls
  | start (i : Fin n) (links : Links Which (Fin n)) :
      (∀ w, i ∈ ls w → w = target (s.timers i).period s.now) →
      Effect s ls (.start i) (s.queued i s.now links) .ok (queue s ls i s.now)
  | stop (i : Fin n) (links : Links Which (Fin n)) : Effect s ls (.stop i) (s.unqueued i links) .ok (unqueue ls i)
  | change (i : Fin n) (ms : Nat) (links links' : Links Which (Fin n)) :
      Lists (s.recreated i ms links).links (unqueue ls i) →
      Effect s ls (.change i ms) ((s.recreated i ms links).queued i s.now links') .ok
        (queue (s.recreated i ms links) (unqueue ls i) i s.now)
  | yield : Effect s ls .yield (yieldEnter s) .quiet ls
  | switch (y : Yield) (rest : List Yield) : s.yields = y :: rest → y.phase = .overflowing → ls .timerList = [] →
      Effect s ls .resume
        { timerListSwitch s with yields := { y with phase := .processing, inCallback := false } :: rest } .quiet (switched ls)
  | expire (y : Yield) (rest : List Yield) (i : Fin n) (tail : List (Fin n)) : s.yields = y :: rest →
      ls .timerList = i :: tail → (y.phase = .processing → (s.timers i).delay ≤ y.nowTime) →
      (s.timers i).autoReload = false →
      Effect s ls .resume ((s.popped i).called y rest i) (.expired i (s.timers i).callback)
        (Function.update ls .timerList tail)
  | reload (y : Yield) (rest : List Yield) (i : Fin n) (tail : List (Fin n)) (links : Links Which (Fin n)) :
      s.yields = y :: rest → ls .timerList = i :: tail → (y.phase = .processing → (s.timers i).delay ≤ y.nowTime) →
      (s.timers i).autoReload = true →
      Effect s ls .resume (((s.popped i).queued i y.nowTime links).called y rest i) (.expired i (s.timers i).callback)
        (queue (s.popped i) (Function.update ls .timerList tail) i y.nowTime)
  | leave (y : Yield) (rest : List Yield) : s.yields = y :: rest → y.phase = .processing →
      (∀ i tail, ls .timerList = i :: tail → y.nowTime < (s.timers i).delay) →
      Effect s ls .resume (yieldLeave s y rest).1 (yieldLeave s y rest).2 ls

variable {tail : List (Fin n)} {e : Event n}

theorem Lists.pop_not_mem {i : Fin n} (h : Lists s.links ls) (hhead : ls .timerList = i :: tail) (w : Which) :
    i ∉ Function.update ls .timerList tail w := by
  have hnodup := h.nodup .timerList
  rw [hhead] at hnodup
  by_cases hw : w = .timerList
  · subst hw
    exact (List.nodup_cons.mp hnodup).1
  · rw [update_of_ne hw]
    exact fun hmem => hw (h.apart i w .timerList hmem (by rw [hhead]; exact List.mem_cons_self))

/-- The body of the loops. -/
theorem yieldExpire_effect {y : Yield} {rest : List Yield} {i : Fin n} (h : Lists s.links ls)
    (hy : s.yields = y :: rest) (hhead : ls .timerList = i :: tail)
    (hdue : y.phase = .processing → (s.timers i).delay ≤ y.nowTime) :
    ∃ s' o ls', yieldExpire s y rest i = some (s', o) ∧ Lists s'.links ls' ∧ Effect s ls .resume s' o ls' := by
  have hpop : Lists (s.popped i).links (Function.update ls .timerList tail) := h.pop hhead
  cases hauto : (s.timers i).autoReload with
  | false =>
    refine ⟨(s.popped i).called y rest i, _, _, ?_, hpop, .expire y rest i tail hy hhead hdue hauto⟩
    simp only [yieldExpire, hauto, Bool.false_eq_true, if_false]
    rfl
  | true =>
    obtain ⟨links, hins, hlists⟩ := timerInsert_spec hpop y.nowTime fun w hmem => absurd hmem (h.pop_not_mem hhead w)
    refine ⟨((s.popped i).queued i y.nowTime links).called y rest i, _, _, ?_, hlists,
      .reload y rest i tail links hy hhead hdue hauto⟩
    · simp only [yieldExpire, hauto, if_true]
      rw [show ({ s with links := s.links.set (.head .timerList) (s.links.next i) } : State n) = s.popped i from rfl, hins]
      simp [State.called, State.queued, Timer.queued, State.popped]

/-- An enabled, straight step is taken, and its effect is one of these. -/
theorem step_effect (h : Lists s.links ls) (he : Enabled s e) (hc : Straight s e) :
    ∃ s' o ls', step s e = some (s', o) ∧ Lists s'.links ls' ∧ Effect s ls e s' o ls' := by
  cases e with
  | tick ms => exact ⟨_, _, _, rfl, h, .tick ms⟩
  | start i =>
    have he : s.free = true := he
    have hi (w : Which) (hmem : i ∈ ls w) := hc w (by rw [h.members_eq]; exact hmem)
    obtain ⟨links, hins, hlists⟩ := timerInsert_spec h s.now hi
    refine ⟨_, _, _, ?_, hlists, .start i links hi⟩
    rw [step, if_pos he, multiTimerStart, hins]
    rfl
  | stop i =>
    have he : s.free = true := he
    obtain ⟨links, hdel, hlists⟩ := multiTimerDelete_spec h fun w hmem => hc w (by rw [h.members_eq]; exact hmem)
    refine ⟨_, _, _, ?_, hlists, .stop i links⟩
    rw [step, if_pos he, hdel]
    rfl
  | change i ms =>
    have he : s.free = true := he
    obtain ⟨links, links', hchange, hcreat, hlists⟩ :=
      multiTimerChange_spec h ms fun w hmem => hc w (by rw [h.members_eq]; exact hmem)
    refine ⟨_, _, _, ?_, hlists, .change i ms links links' hcreat⟩
    rw [step, if_pos he, hchange]
    rfl
  | yield => exact ⟨_, _, _, if_pos he, h, .yield⟩
  | resume =>
    obtain ⟨y, rest, hy⟩ := List.exists_cons_of_ne_nil he
    rw [step, hy]
    dsimp only
    rw [yieldRound]
    cases hphase : y.phase with
    | overflowing =>
      cases hhead : s.links.head .timerList with
      | none => exact ⟨_, _, _, rfl, h.switch, .switch y rest hy hphase (h.head_none.mp hhead)⟩
      | some i =>
        obtain ⟨tail, htail⟩ := h.head_some hhead
        exact yieldExpire_effect h hy htail fun hp => by
          rw [hphase] at hp
          cases hp
    | processing =>
      cases hhead : s.links.head .timerList with
      | none =>
        refine ⟨_, _, _, rfl, h, .leave y rest hy hphase fun i tail htail => ?_⟩
        rw [h.head_none.mp hhead] at htail
        cases htail
      | some i =>
        obtain ⟨tail, htail⟩ := h.head_some hhead
        dsimp only
        by_cases hlt : y.nowTime < (s.timers i).delay
        · rw [if_pos hlt]
          refine ⟨_, _, _, rfl, h, .leave y rest hy hphase fun j tail' htail' => ?_⟩
          rw [htail] at htail'
          cases htail'
          exact hlt
        · rw [if_neg hlt]
          exact yieldExpire_effect h hy htail fun _ => Nat.le_of_not_lt hlt

/-- A step that is taken was enabled. -/
theorem enabled_of_step {r : State n × Output n} (h : step s e = some r) : Enabled s e := by
  cases e with
  | tick ms => trivial
  | resume =>
    intro hnil
    rw [step, hnil] at h
    cases h
  | start i =>
    by_contra hfree
    exact absurd ((if_neg hfree).symm.trans h) (by simp)
  | stop i =>
    by_contra hfree
    exact absurd ((if_neg hfree).symm.trans h) (by simp)
  | change i ms =>
    by_contra hfree
    exact absurd ((if_neg hfree).symm.trans h) (by simp)
  | yield =>
    by_contra hfree
    exact absurd ((if_neg hfree).symm.trans h) (by simp)

theorem effect_of_step {s' : State n} {o : Output n} (h : Lists s.links ls) (hc : Straight s e)
    (hstep : step s e = some (s', o)) : ∃ ls', Lists s'.links ls' ∧ Effect s ls e s' o ls' := by
  obtain ⟨t, o', ls', ht, hlists, heff⟩ := step_effect h (enabled_of_step hstep) hc
  rw [hstep] at ht
  cases ht
  exact ⟨ls', hlists, heff⟩

theorem boot_lists (timers : Fin n → Timer) (clock : Nat) : Lists (boot timers clock).links fun _ => [] :=
  ⟨fun _ => rfl, fun i _ _ hi => by cases hi⟩

end Steps
end Qumios.MultiTimer
