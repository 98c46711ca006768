import Qumios.MultiTimer.Deadlines

/-! When a yield returns.

Both loops of `multi_timer_yield` take the first timer from the list and put it back if it is
to be reloaded. The second one stops at a deadline that is not reached, and a reload behind
`now_time` is not; the timers that are due get fewer with every round. The first one, behind
the wrap of the clock, stops at the end of the list only: it goes on as long as a reload comes
back to the list it drains, and that is where every period goes that does not reach the next
wrap. One such timer, and the yield never returns (`drains_forever`); without one it returns,
whatever its callbacks stop meanwhile (`yield_returns`). -/
namespace Qumios.MultiTimer
open Run Linked List Function

/-- What happens while a yield goes on: rounds of it, and callbacks that neither start timers
nor yield. -/
def Event.inside {n : Nat} : Event n → Bool
  | .tick _ | .stop _ | .resume => true
  | _ => false

def Output.isReturn {n : Nat} : Output n → Bool
  | .returned _ => true
  | _ => false

def Returned {n : Nat} (trace : List (Event n × Output n)) : Prop := ∃ x ∈ trace, x.2.isReturn = true

section Returning
variable {n : Nat} {s s' : State n} {ls : Which → List (Fin n)} {y : Yield} {rest : List Yield} {o : Output n}

/-- A yield that goes on and comes to an end: its lists are lists, periods are positive, and in
the first loop nothing comes back to the list. -/
structure Going (s : State n) (ls : Which → List (Fin n)) (y : Yield) (rest : List Yield) : Prop where
  top : s.yields = y :: rest
  lists : Lists s.links ls
  period : ∀ i, 1 ≤ (s.timers i).period ∧ (s.timers i).period < lap
  drains : y.phase = .overflowing → ∀ i ∈ ls .timerList, (s.timers i).autoReload = true →
    target (s.timers i).period y.nowTime = .overflowTimerList

def roundsLeft (s : State n) (y : Yield) (xs : List (Fin n)) : Nat :=
  match y.phase with
  | .overflowing => xs.length + (n + 2)
  | .processing => xs.countP (fun i => (s.timers i).delay ≤ y.nowTime) + 1

theorem Yield.nowTime_lt (y : Yield) : y.nowTime < lap := Nat.mod_lt _ (by decide)

/-- A reload that stays in the list is not due. -/
theorem lt_reload {period nowTime : Nat} (hperiod : 1 ≤ period) (hlap : period < lap) (hnow : nowTime < lap)
    (htarget : target period nowTime = .timerList) : nowTime < u32 (period + nowTime) := by
  have hge : ¬ u32 (period + nowTime) < nowTime := by
    intro hlt
    rw [target, if_pos hlt] at htarget
    cases htarget
  by_cases hwrap : period + nowTime < lap
  · rw [u32_of_lt (show period + nowTime < 2 ^ 32 from hwrap)]
    omega
  · have hmod : u32 (period + nowTime) = period + nowTime - lap := by
      simp only [u32, lap] at *
      omega
    omega

variable {tail xs : List (Fin n)} {t : State n}

/-- What a reload leaves to do: no more than the rest of the list. -/
theorem countP_queue (ls : Which → List (Fin n)) {i : Fin n} {nowTime : Nat} (hi : i ∉ tail)
    (hperiod : 1 ≤ (s.timers i).period ∧ (s.timers i).period < lap) (hnow : nowTime < lap) :
    (queue s (Function.update ls .timerList tail) i nowTime .timerList).countP
        (fun j => s.delayAfter i nowTime j ≤ nowTime) =
      tail.countP fun j => (s.timers j).delay ≤ nowTime := by
  have htail : tail.countP (fun j => s.delayAfter i nowTime j ≤ nowTime) =
      tail.countP fun j => (s.timers j).delay ≤ nowTime := by
    refine countP_congr fun j hj => ?_
    have hne : j ≠ i := fun heq => hi (heq ▸ hj)
    rw [State.delayAfter, if_neg hne]
  cases htarget : target (s.timers i).period nowTime with
  | overflowTimerList =>
    rw [queue, htarget, update_of_ne (by decide), update_self]
    exact htail
  | timerList =>
    have hlater := lt_reload hperiod.1 hperiod.2 hnow htarget
    have hself : ¬ s.delayAfter i nowTime i ≤ nowTime := by
      rw [State.delayAfter, if_pos rfl]
      exact Nat.not_le.mpr hlater
    rw [queue, htarget, update_self, update_self, erase_of_not_mem hi,
      (place_perm i _ tail).countP_eq, countP_cons_of_neg (by simpa using hself)]
    exact htail

/-- A timer taken from the list leaves one round less to make. -/
theorem roundsLeft_pop {y' : Yield} {i : Fin n} (hphase : y'.phase = y.phase) (hbegun : y'.begun = y.begun)
    (hdue : y.phase = .processing → (s.timers i).delay ≤ y.nowTime)
    (hlength : y.phase = .overflowing → xs.length = tail.length)
    (hcount : xs.countP (fun j => (t.timers j).delay ≤ y.nowTime) = tail.countP fun j => (s.timers j).delay ≤ y.nowTime) :
    roundsLeft t y' xs < roundsLeft s y (i :: tail) := by
  have hnow : y'.nowTime = y.nowTime := by rw [Yield.nowTime, hbegun, Yield.nowTime]
  unfold roundsLeft
  rw [hphase, hnow]
  cases hp : y.phase with
  | overflowing =>
    dsimp only
    rw [hlength hp, length_cons]
    omega
  | processing =>
    dsimp only
    rw [hcount, countP_cons_of_pos (by simpa using hdue hp)]
    omega

/-- A round: the yield returns, or goes on with fewer to make. -/
theorem Going.resume (h : Going s ls y rest) (hs : step s .resume = some (s', o)) :
    o.isReturn = true ∨ ∃ ls' y', Going s' ls' y' rest ∧
      roundsLeft s' y' (ls' .timerList) < roundsLeft s y (ls .timerList) := by
  obtain ⟨ls', hlists, heff⟩ := effect_of_step (e := .resume) h.lists trivial hs
  cases heff with
  | switch y₁ rest₁ hy hphase hempty =>
    obtain ⟨rfl, rfl⟩ := List.cons.inj (h.top.symm.trans hy)
    refine .inr ⟨_, _, ⟨rfl, hlists, h.period, fun hp => by cases hp⟩, ?_⟩
    have hlen : (ls .overflowTimerList).length < n + 1 := h.lists.length_lt _
    have hcount : (ls .overflowTimerList).countP (fun i => (s.timers i).delay ≤ y.nowTime) ≤ _ := countP_le_length
    have hleft : roundsLeft s y (ls .timerList) = n + 2 := by simp [roundsLeft, hphase, hempty]
    rw [hleft]
    show (ls .overflowTimerList).countP (fun i => (s.timers i).delay ≤ y.nowTime) + 1 < n + 2
    omega
  | expire y₁ rest₁ i tail hy hhead hdue hauto =>
    obtain ⟨rfl, rfl⟩ := List.cons.inj (h.top.symm.trans hy)
    refine .inr ⟨_, _, ⟨rfl, hlists, h.period, fun hp j hj hj' => ?_⟩, ?_⟩
    · exact h.drains hp j (by rw [hhead]; exact mem_cons_of_mem _ hj) hj'
    · rw [update_self, hhead]
      exact roundsLeft_pop rfl rfl hdue (fun _ => rfl) rfl
  | reload y₁ rest₁ i tail links hy hhead hdue hauto =>
    obtain ⟨rfl, rfl⟩ := List.cons.inj (h.top.symm.trans hy)
    have hi : i ∉ tail := by
      have hnodup := h.lists.nodup .timerList
      rw [hhead] at hnodup
      exact (nodup_cons.mp hnodup).1
    have hmem : i ∈ ls .timerList := by rw [hhead]; exact mem_cons_self
    -- in the first loop the list keeps its rest only
    have hlist : y.phase = .overflowing →
        queue (s.popped i) (Function.update ls .timerList tail) i y.nowTime .timerList = tail := by
      intro hp
      have htarget : target ((s.popped i).timers i).period y.nowTime = .overflowTimerList := h.drains hp i hmem hauto
      rw [queue, htarget, update_of_ne (by decide), update_self]
    refine .inr ⟨_, _, ⟨rfl, hlists, fun j => ?_, fun hp j hj hj' => ?_⟩, ?_⟩
    · have hperiod : (((s.popped i).queued i y.nowTime links).timers j).period = (s.timers j).period := queued_period ..
      exact hperiod.symm ▸ h.period j
    · have hperiod : (((s.popped i).queued i y.nowTime links).timers j).period = (s.timers j).period := queued_period ..
      have hauto' : (((s.popped i).queued i y.nowTime links).timers j).autoReload = (s.timers j).autoReload :=
        queued_autoReload ..
      rw [hlist hp] at hj
      have htarget := h.drains hp j (by rw [hhead]; exact mem_cons_of_mem _ hj) (hauto'.symm.trans hj')
      exact hperiod.symm ▸ htarget
    · rw [hhead]
      refine roundsLeft_pop rfl rfl hdue (fun hp => congrArg List.length (hlist hp)) ?_
      have hdelay : ∀ j, (((s.popped i).queued i y.nowTime links).timers j).delay =
          (s.popped i).delayAfter i y.nowTime j := fun j => queued_delay ..
      have hcount := countP_queue (s := s.popped i) ls hi (h.period i) y.nowTime_lt
      refine Eq.trans (countP_congr fun j _ => ?_) hcount
      rw [← hdelay]
      rfl
  | leave y₁ rest₁ hy hphase hnone => exact .inl rfl

/-- What callbacks do takes timers from the lists and changes nothing else the loops read; a stop
that looks into the wrong list takes none. -/
theorem multiTimerDelete_lists (h : Lists s.links ls) (i : Fin n) :
    ∃ links ls', multiTimerDelete s i = some (s.unqueued i links) ∧ Lists links ls' ∧ ∀ w, (ls' w).Sublist (ls w) := by
  rw [multiTimerDelete]
  cases hlist : (s.timers i).list with
  | none =>
    have hsame : { s.timers i with list := none } = s.timers i := by rw [← hlist]
    refine ⟨s.links, ls, ?_, h, fun w => .refl _⟩
    rw [State.unqueued, hsame, update_eq_self]
  | some w =>
    obtain ⟨l', hl', h'⟩ := h.unlink i w
    refine ⟨l', _, by simp only [hl']; rfl, h', fun w' => ?_⟩
    by_cases hw : w' = w
    · subst hw
      rw [update_self]
      exact erase_sublist
    · rw [update_of_ne hw]

theorem roundsLeft_sublist {ys : List (Fin n)} (hdelay : ∀ i, (t.timers i).delay = (s.timers i).delay)
    (hsub : xs.Sublist ys) : roundsLeft t y xs ≤ roundsLeft s y ys := by
  unfold roundsLeft
  simp only [hdelay]
  cases y.phase with
  | overflowing =>
    have := hsub.length_le
    dsimp only
    omega
  | processing =>
    have : xs.countP (fun i => (s.timers i).delay ≤ y.nowTime) ≤ ys.countP _ := hsub.countP_le
    dsimp only
    omega

/-- What is done inside a callback. -/
theorem Going.callback {e : Event n} (h : Going s ls y rest) (he : e.inside = true) (hne : e ≠ .resume)
    (hs : step s e = some (s', o)) :
    ∃ ls', Going s' ls' y rest ∧ roundsLeft s' y (ls' .timerList) ≤ roundsLeft s y (ls .timerList) := by
  cases e with
  | tick ms =>
    cases hs
    exact ⟨ls, ⟨h.top, h.lists, h.period, h.drains⟩, Nat.le_refl _⟩
  | stop i =>
    obtain ⟨links, ls', hdel, hlists, hsub⟩ := multiTimerDelete_lists h.lists i
    have hfree : s.free = true := enabled_of_step (e := .stop i) hs
    rw [step, if_pos hfree, hdel] at hs
    cases hs
    have htimers : ∀ j, ((s.unqueued i links).timers j).delay = (s.timers j).delay ∧
        ((s.unqueued i links).timers j).period = (s.timers j).period ∧
        ((s.unqueued i links).timers j).autoReload = (s.timers j).autoReload := by
      intro j
      by_cases hj : j = i
      · subst hj
        simp [State.unqueued]
      · simp [State.unqueued, hj]
    refine ⟨ls', ⟨h.top, hlists, fun j => ?_, fun hp j hj hauto => ?_⟩,
      roundsLeft_sublist (fun j => (htimers j).1) (hsub _)⟩
    · rw [(htimers j).2.1]
      exact h.period j
    · rw [(htimers j).2.1]
      exact h.drains hp j ((hsub _).subset hj) ((htimers j).2.2.symm.trans hauto)
  | resume => exact absurd rfl hne
  | start i => cases he
  | change i ms => cases he
  | yield => cases he

/-- A run of it that has not returned has made so many rounds fewer. -/
theorem Going.run {events : List (Event n)} {trace : List (Event n × Output n)} (h : Going s ls y rest)
    (hin : ∀ e ∈ events, e.inside = true) (hr : (machine n).run s events = some (t, trace))
    (hnot : ¬ Returned trace) : ∃ ls' y', Going t ls' y' rest ∧
      events.count .resume + roundsLeft t y' (ls' .timerList) ≤ roundsLeft s y (ls .timerList) := by
  induction events generalizing s ls y trace with
  | nil =>
    cases hr
    exact ⟨ls, y, h, by simp⟩
  | cons e events ih =>
    obtain ⟨s', o, trace', hstep, hrest, rfl⟩ := (machine n).run_cons_eq_some.mp hr
    have hin' : ∀ e' ∈ events, e'.inside = true := fun e' he' => hin e' (mem_cons_of_mem _ he')
    have hnot' : ¬ Returned trace' := fun ⟨x, hx, hret⟩ => hnot ⟨x, mem_cons_of_mem _ hx, hret⟩
    by_cases he : e = .resume
    · subst he
      rcases h.resume hstep with hret | ⟨ls', y', hgoing, hfewer⟩
      · exact absurd ⟨_, mem_cons_self, hret⟩ hnot
      · obtain ⟨ls'', y'', hend, hle⟩ := ih hgoing hin' hrest hnot'
        refine ⟨ls'', y'', hend, ?_⟩
        rw [count_cons_self]
        omega
    · obtain ⟨ls', hgoing, hfewer⟩ := h.callback (hin e mem_cons_self) he hstep
      obtain ⟨ls'', y'', hend, hle⟩ := ih hgoing hin' hrest hnot'
      refine ⟨ls'', y'', hend, ?_⟩
      rw [count_cons_of_ne he]
      omega

end Returning

def Drains {n : Nat} (s : State n) : Prop :=
  s.now < s.lastTime → ∀ i ∈ s.members .timerList, (s.timers i).autoReload = true →
    target (s.timers i).period s.now = .overflowTimerList

instance {n : Nat} (s : State n) : Decidable (Drains s) :=
  inferInstanceAs (Decidable (s.now < s.lastTime → ∀ i ∈ s.members .timerList, (s.timers i).autoReload = true →
    target (s.timers i).period s.now = .overflowTimerList))

theorem run_lists {n : Nat} {timers : Fin n → Timer} {clock : Nat} {events : List (Event n)} {t : State n}
    {trace : List (Event n × Output n)} (hc : (machine n).Meets Straight (boot timers clock) events)
    (hr : (machine n).run (boot timers clock) events = some (t, trace)) : ∃ ls, Lists t.links ls :=
  (machine n).run_invariant Straight (fun _ s => ∃ ls, Lists s.links ls)
    (fun _ _ _ _ _ ⟨_, h⟩ hc hstep => (effect_of_step h hc hstep).imp fun _ h => h.1)
    ⟨_, boot_lists timers clock⟩ hc hr

def acrossWrap : List (Event 1) := [.start (Fin.last 0), .yield, .resume, .tick 300]

section Endless
variable {n : Nat} {s s' : State n} {ls : Which → List (Fin n)} {y : Yield} {rest : List Yield} {o : Output n}

/-- The first loop, with a timer in its list that a reload brings back to it. -/
structure Caught (s : State n) (i : Fin n) : Prop where
  lists : ∃ ls, Lists s.links ls ∧ i ∈ ls .timerList
  loop : ∃ y rest, s.yields = y :: rest ∧ y.phase = .overflowing ∧ target (s.timers i).period y.nowTime = .timerList
  reloads : (s.timers i).autoReload = true

variable {i : Fin n}

/-- A round leaves it there. -/
theorem Caught.resume (h : Caught s i) :
    ∃ s' o, step s .resume = some (s', o) ∧ o.isReturn = false ∧ Caught s' i := by
  obtain ⟨ls, hlists, hi⟩ := h.lists
  obtain ⟨y, rest, hy, hphase, htarget⟩ := h.loop
  have henabled : Enabled s .resume := by
    show s.yields ≠ []
    rw [hy]
    exact cons_ne_nil _ _
  obtain ⟨s', o, ls', hstep, hlists', heff⟩ := step_effect hlists henabled trivial
  refine ⟨s', o, hstep, ?_⟩
  cases heff with
  | switch y₁ rest₁ _ _ hempty =>
    rw [hempty] at hi
    cases hi
  | expire y₁ rest₁ j tail hy₁ hhead _ hauto =>
    obtain ⟨rfl, rfl⟩ := List.cons.inj (hy.symm.trans hy₁)
    have hij : i ≠ j := by
      rintro rfl
      rw [h.reloads] at hauto
      cases hauto
    have hmem : i ∈ tail := (mem_cons.mp (hhead ▸ hi)).resolve_left hij
    exact ⟨rfl, ⟨_, hlists', by rwa [update_self]⟩, ⟨_, _, rfl, hphase, htarget⟩, h.reloads⟩
  | reload y₁ rest₁ j tail links hy₁ hhead _ _ =>
    obtain ⟨rfl, rfl⟩ := List.cons.inj (hy.symm.trans hy₁)
    have hpop : Lists (s.popped j).links (Function.update ls .timerList tail) := hlists.pop hhead
    have hperiod : (((s.popped j).queued j y.nowTime links).timers i).period = (s.timers i).period := queued_period ..
    have hauto : (((s.popped j).queued j y.nowTime links).timers i).autoReload = (s.timers i).autoReload :=
      queued_autoReload ..
    refine ⟨rfl, ⟨_, hlists', ?_⟩, ⟨_, _, rfl, hphase, hperiod.symm ▸ htarget⟩, hauto.trans h.reloads⟩
    rw [mem_queue hpop.nodup fun w hmem => absurd hmem (hlists.pop_not_mem hhead w)]
    by_cases hij : i = j
    · subst hij
      rw [if_pos rfl]
      exact htarget.symm
    · rw [if_neg hij, update_self]
      exact (mem_cons.mp (hhead ▸ hi)).resolve_left hij
  | leave y₁ rest₁ hy₁ hphase₁ _ =>
    obtain ⟨rfl, rfl⟩ := List.cons.inj (hy.symm.trans hy₁)
    rw [hphase] at hphase₁
    cases hphase₁

/-- **It never returns**, however many rounds it makes. -/
theorem drains_forever (h : Caught s i) (k : Nat) :
    ∃ t trace, (machine n).run s (replicate k .resume) = some (t, trace) ∧ ¬ Returned trace := by
  induction k generalizing s with
  | zero => exact ⟨s, [], rfl, fun ⟨x, hx, _⟩ => by cases hx⟩
  | succ k ih =>
    obtain ⟨s', o, hstep, hout, hcaught⟩ := h.resume
    obtain ⟨t, trace, hr, hnot⟩ := ih hcaught
    refine ⟨t, (.resume, o) :: trace, (machine n).run_cons_eq_some.mpr ⟨s', o, trace, hstep, hr, rfl⟩, ?_⟩
    rintro ⟨x, hx, hret⟩
    rcases mem_cons.mp hx with rfl | hx
    · rw [hout] at hret
      cases hret
    · exact hnot ⟨x, hx, hret⟩

theorem caught_of_yield (hlists : Lists s.links ls) (hi : i ∈ s.members .timerList) (hwrap : s.now < s.lastTime)
    (hauto : (s.timers i).autoReload = true) (htarget : target (s.timers i).period s.now = .timerList) :
    Caught (yieldEnter s) i := by
  rw [hlists.members_eq] at hi
  refine ⟨⟨ls, hlists, hi⟩, ⟨_, _, rfl, ?_, htarget⟩, hauto⟩
  simp [hwrap]

end Endless

end Qumios.MultiTimer
