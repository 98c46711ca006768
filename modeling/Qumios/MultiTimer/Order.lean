import Qumios.MultiTimer.Steps

/-! The shape of the two lists.

Both lists should end, be sorted by `delay`, have no timer twice and none in common, and
each timer in one of them should point to it with its `list` (`Owned`). Nothing in the
code looks at more than one of these at a time. A timer that is started goes to the list of
its new deadline and is taken out of that list only; `timer_list_switch` moves timers to
another list without a word to them; `multi_timer_creat` clears the link of a timer that
others hang on. `lists_owned` says that these three are all there is to avoid, and
`lists_crossed` that each of them does its harm.

`multi_timer_creat` is not among the events of `Timers`, whose timers are created from the
start; a `Call` is one of those events or a creation. -/
namespace Qumios.MultiTimer
open Run Linked

/-! ### Creation -/

section Calls
variable {n : Nat}

inductive Call (n : Nat) where
  | event (e : Event n)
  /-- It takes no lock, and so may come at any time. -/
  | creat (i : Fin n) (ms : Nat) (callback autoReload : Bool)
  deriving DecidableEq, Repr

def callStep (s : State n) : Call n → Option (State n × Output n)
  | .event e => step s e
  | .creat i ms callback autoReload => some (multiTimerCreat s i ms callback autoReload, .ok)

def callMachine (n : Nat) : Machine (State n) (Call n) (Output n) := ⟨callStep⟩

end Calls

/-! ### Sorted lists -/

section Shape
variable {n : Nat} {s s' : State n} {ls ls' : Which → List (Fin n)} {e : Event n} {o : Output n}

/-- The lists end, have no timer in common, and are sorted. -/
structure Ordered (s : State n) (ls : Which → List (Fin n)) : Prop where
  lists : Lists s.links ls
  sorted : ∀ w, (ls w).Pairwise fun a b => (s.timers a).delay ≤ (s.timers b).delay

/-- Each timer points to the list it is in. -/
structure Owned (s : State n) (ls : Which → List (Fin n)) : Prop extends Ordered s ls where
  owner : ∀ w i, i ∈ ls w → (s.timers i).list = some w

variable {i : Fin n}

theorem sublist_update {w : Which} {tail : List (Fin n)} (h : ls w = i :: tail) (w' : Which) :
    (Function.update ls w tail w').Sublist (ls w') := by
  by_cases hw : w' = w
  · subst hw
    rw [Function.update_self, h]
    exact List.sublist_cons_self i tail
  · rw [Function.update_of_ne hw]

theorem recreated_timers (s : State n) (i j : Fin n) (ms : Nat) (links : Links Which (Fin n)) (hj : j ≠ i) :
    (s.recreated i ms links).timers j = s.timers j := by
  simp [State.recreated, multiTimerCreat, State.setTimer, State.unqueued, hj]

theorem unqueued_delay (s : State n) (i j : Fin n) (links : Links Which (Fin n)) :
    ((s.unqueued i links).timers j).delay = (s.timers j).delay := by
  by_cases hj : j = i
  · subst hj
    simp [State.unqueued]
  · simp [State.unqueued, hj]

theorem Ordered.recreated (h : Ordered s ls) (i : Fin n) (ms : Nat) (links : Links Which (Fin n)) (w : Which) :
    (unqueue ls i w).Pairwise fun a b =>
      ((s.recreated i ms links).timers a).delay ≤ ((s.recreated i ms links).timers b).delay := by
  refine ((h.sorted w).sublist List.erase_sublist).imp_of_mem fun ha hb hle => ?_
  rwa [recreated_timers _ _ _ _ _ ((mem_unqueue h.lists.nodup).mp ha).1,
    recreated_timers _ _ _ _ _ ((mem_unqueue h.lists.nodup).mp hb).1]

/-- What a step does leaves the lists sorted. -/
theorem Ordered.effect (h : Ordered s ls) (heff : Effect s ls e s' o ls') (hlists : Lists s'.links ls') :
    Ordered s' ls' := by
  refine ⟨hlists, fun w => ?_⟩
  cases heff with
  | tick ms => exact h.sorted w
  | yield => exact h.sorted w
  | leave y rest _ _ _ => exact h.sorted w
  | start i links hi =>
    simp only [queued_delay]
    exact pairwise_queue h.lists.nodup h.sorted hi w
  | stop i links =>
    simp only [unqueued_delay]
    exact (h.sorted w).sublist List.erase_sublist
  | change i ms links links' hcreat =>
    simp only [queued_delay]
    exact pairwise_queue hcreat.nodup (h.recreated i ms links)
      (fun w hmem => absurd rfl ((mem_unqueue h.lists.nodup).mp hmem).1) w
  | switch y rest _ _ _ =>
    cases w with
    | timerList => exact h.sorted .overflowTimerList
    | overflowTimerList => exact List.Pairwise.nil
  | expire y rest i tail _ hhead _ _ => exact (h.sorted w).sublist (sublist_update hhead w)
  | reload y rest i tail links _ hhead _ _ =>
    have hpop : Lists (s.popped i).links (Function.update ls .timerList tail) := h.lists.pop hhead
    have hsorted (w : Which) : (Function.update ls .timerList tail w).Pairwise fun a b =>
        ((s.popped i).timers a).delay ≤ ((s.popped i).timers b).delay :=
      (h.sorted w).sublist (sublist_update hhead w)
    simp only [State.called, queued_delay]
    exact pairwise_queue hpop.nodup hsorted (fun w hmem => absurd hmem (h.lists.pop_not_mem hhead w)) w

/-- A timer that was put into a list points to it. -/
theorem owner_queue {j : Fin n} {w : Which} {nowTime : Nat} {links : Links Which (Fin n)}
    (hnodup : ∀ w, (ls w).Nodup) (howner : ∀ w j, j ∈ ls w → (s.timers j).list = some w)
    (hi : ∀ w, i ∈ ls w → w = target (s.timers i).period nowTime) (hj : j ∈ queue s ls i nowTime w) :
    ((s.queued i nowTime links).timers j).list = some w := by
  rw [mem_queue hnodup hi] at hj
  rw [queued_list]
  split at hj
  · next hji => rw [if_pos hji, hj]
  · next hji =>
    rw [if_neg hji]
    exact howner w j hj

/-- What a step does leaves the timers pointing to their lists, if no switch moves any. -/
theorem Owned.effect (h : Owned s ls) (heff : Effect s ls e s' o ls') (hlists : Lists s'.links ls')
    (hmoved : ∀ y rest, e = .resume → s.yields = y :: rest → y.phase = .overflowing → ls .timerList = [] →
      ls .overflowTimerList = []) : Owned s' ls' := by
  refine ⟨h.toOrdered.effect heff hlists, fun w j hj => ?_⟩
  cases heff with
  | tick ms => exact h.owner w j hj
  | yield => exact h.owner w j hj
  | leave y rest _ _ _ => exact h.owner w j hj
  | start i links hi => exact owner_queue h.lists.nodup h.owner hi hj
  | stop i links =>
    obtain ⟨hji, hmem⟩ := (mem_unqueue h.lists.nodup).mp hj
    simp only [State.unqueued, Function.update_of_ne hji]
    exact h.owner w j hmem
  | change i ms links links' hcreat =>
    refine owner_queue hcreat.nodup (fun w j hmem => ?_)
      (fun w hmem => absurd rfl ((mem_unqueue h.lists.nodup).mp hmem).1) hj
    obtain ⟨hji, hmem⟩ := (mem_unqueue h.lists.nodup).mp hmem
    rw [recreated_timers _ _ _ _ _ hji]
    exact h.owner w j hmem
  | switch y rest hy hphase hempty =>
    cases w with
    | timerList =>
      have hnone : j ∈ ls .overflowTimerList := hj
      rw [hmoved y rest rfl hy hphase hempty] at hnone
      cases hnone
    | overflowTimerList => cases hj
  | expire y rest i tail _ hhead _ _ => exact h.owner w j ((sublist_update hhead w).subset hj)
  | reload y rest i tail links _ hhead _ _ =>
    have hpop : Lists (s.popped i).links (Function.update ls .timerList tail) := h.lists.pop hhead
    have howner (w : Which) (j : Fin n) (hmem : j ∈ Function.update ls .timerList tail w) :
        ((s.popped i).timers j).list = some w := h.owner w j ((sublist_update hhead w).subset hmem)
    simp only [State.called]
    exact owner_queue hpop.nodup howner (fun w hmem => absurd hmem (h.lists.pop_not_mem hhead w)) hj

/-- A timer in no list may be created again. -/
theorem Owned.creat (h : Owned s ls) (hi : ∀ w, i ∉ ls w) (ms : Nat) (callback autoReload : Bool) :
    Owned (multiTimerCreat s i ms callback autoReload) ls := by
  have hlists : Lists (multiTimerCreat s i ms callback autoReload).links ls := h.lists.creat hi ms _ _
  have hsame {w : Which} {j : Fin n} (hj : j ∈ ls w) :
      (multiTimerCreat s i ms callback autoReload).timers j = s.timers j :=
    Function.update_of_ne (fun heq : j = i => hi w (heq ▸ hj)) _ _
  refine ⟨⟨hlists, fun w => ?_⟩, fun w j hj => ?_⟩
  · refine (h.sorted w).imp_of_mem fun ha hb hle => ?_
    rwa [hsame ha, hsame hb]
  · rw [hsame hj]
    exact h.owner w j hj

end Shape

/-! ### Every run -/

section Runs
variable {n : Nat} {s s' : State n} {ls : Which → List (Fin n)} {c : Call n} {o : Output n}

/-- A timer that is started is in no other list than it goes to, a timer that is created is in
none, and a switch finds no timer to move. -/
def Orderly (s : State n) : Call n → Prop
  | .event (.start i) => ∀ w, i ∈ s.members w → w = target (s.timers i).period s.now
  | .event .resume => ∀ y ∈ s.yields.head?, y.phase = .overflowing → s.links.head .timerList = none →
      s.links.head .overflowTimerList = none
  | .creat i _ _ _ => ∀ w, i ∉ s.members w
  | _ => True

instance : ∀ c : Call n, Decidable (Orderly s c)
  | .event (.tick _) => inferInstanceAs (Decidable True)
  | .event (.start _) => inferInstanceAs (Decidable (∀ _, _))
  | .event (.stop _) => inferInstanceAs (Decidable True)
  | .event (.change _ _) => inferInstanceAs (Decidable True)
  | .event .yield => inferInstanceAs (Decidable True)
  | .event .resume => inferInstanceAs (Decidable (∀ y ∈ s.yields.head?, _))
  | .creat _ _ _ _ => inferInstanceAs (Decidable (∀ _, _))

/-- Timers that point to their lists are found where they are stopped. -/
theorem Owned.straight {e : Event n} (h : Owned s ls) (ho : Orderly s (.event e)) : Straight s e := by
  cases e with
  | start i => exact ho
  | stop i =>
    intro w hmem
    rw [h.lists.members_eq] at hmem
    exact h.owner w i hmem
  | change i ms =>
    intro w hmem
    rw [h.lists.members_eq] at hmem
    exact h.owner w i hmem
  | tick ms => trivial
  | yield => trivial
  | resume => trivial

theorem Owned.step (h : Owned s ls) (ho : Orderly s c) (hs : callStep s c = some (s', o)) : ∃ ls', Owned s' ls' := by
  cases c with
  | event e =>
    obtain ⟨ls', hlists, heff⟩ := effect_of_step h.lists (h.straight ho) hs
    refine ⟨ls', h.effect heff hlists fun y rest he hy hphase hempty => ?_⟩
    subst he
    refine h.lists.head_none.mp (ho y ?_ hphase (h.lists.head_none.mpr hempty))
    rw [hy]
    rfl
  | creat i ms callback autoReload =>
    cases hs
    exact ⟨ls, h.creat (fun w hmem => ho w (by rw [h.lists.members_eq]; exact hmem)) ms callback autoReload⟩

end Runs

/-- The two lists, as they should be. -/
structure WellListed {n : Nat} (s : State n) (current overflow : List (Fin n)) : Prop where
  holds_current : s.links.Holds .timerList current
  holds_overflow : s.links.Holds .overflowTimerList overflow
  once : (current ++ overflow).Nodup
  current_sorted : current.Pairwise fun a b => (s.timers a).delay ≤ (s.timers b).delay
  overflow_sorted : overflow.Pairwise fun a b => (s.timers a).delay ≤ (s.timers b).delay
  current_owner : ∀ i ∈ current, (s.timers i).list = some .timerList
  overflow_owner : ∀ i ∈ overflow, (s.timers i).list = some .overflowTimerList

variable {n : Nat}

theorem Owned.wellListed {s : State n} {ls : Which → List (Fin n)} (h : Owned s ls) :
    WellListed s (ls .timerList) (ls .overflowTimerList) where
  holds_current := h.lists.holds .timerList
  holds_overflow := h.lists.holds .overflowTimerList
  once := by
    refine List.nodup_append.mpr ⟨h.lists.nodup _, h.lists.nodup _, fun i hi j hj heq => ?_⟩
    subst heq
    cases h.lists.apart i _ _ hi hj
  current_sorted := h.sorted .timerList
  overflow_sorted := h.sorted .overflowTimerList
  current_owner := h.owner .timerList
  overflow_owner := h.owner .overflowTimerList

/-- **The lists keep their shape** in every run of calls, whatever the clock does, in which no
timer is started while it is in the other list, none is created while it is in a list, and no
list with timers is switched: both end and are sorted, no timer is in them twice, and each
timer in one of them points to it. -/
theorem lists_owned {n : Nat} (timers : Fin n → Timer) (clock : Nat) (calls : List (Call n)) (t : State n)
    (trace : List (Call n × Output n)) (ho : (callMachine n).Meets Orderly (boot timers clock) calls)
    (hr : (callMachine n).run (boot timers clock) calls = some (t, trace)) :
    ∃ current overflow, WellListed t current overflow := by
  have hboot : Owned (boot timers clock) fun _ => [] :=
    ⟨⟨boot_lists timers clock, fun _ => List.Pairwise.nil⟩, fun _ _ hi => by cases hi⟩
  obtain ⟨ls, hls⟩ := (callMachine n).run_invariant Orderly (fun _ s => ∃ ls, Owned s ls)
    (fun _ s c s' o hinv ho hs => by
      obtain ⟨ls, hls⟩ := hinv
      exact hls.step ho hs) ⟨_, hboot⟩ ho hr
  exact ⟨_, _, hls.wellListed⟩

def twoTimers : Fin 2 → Timer := fun i => { period := 20 + 10 * i.val, callback := true, autoReload := false }

def early : Fin 2 := Fin.castSucc (Fin.last 0)

def late : Fin 2 := Fin.last 1

def usedWithinLap : List (Call 2) :=
  [.creat early 20 true true, .event .yield, .event .resume, .event (.start early), .event (.start late),
    .event (.tick 10), .event (.start early), .event (.stop late), .creat late 40 true false,
    .event (.change late 50), .event (.tick 25), .event .yield, .event .resume, .event .resume]

theorem lists_owned_within_lap :
    ∃ t trace, (callMachine 2).run (boot twoTimers (lap - 100)) usedWithinLap = some (t, trace) ∧
      ∃ current overflow, WellListed t current overflow := by
  obtain ⟨⟨t, trace⟩, hr⟩ : ∃ r, (callMachine 2).run (boot twoTimers (lap - 100)) usedWithinLap = some r :=
    Option.isSome_iff_exists.mp (by decide +kernel)
  exact ⟨t, trace, hr, lists_owned twoTimers (lap - 100) usedWithinLap t trace (by decide +kernel) hr⟩

def startedTwice : List (Call 2) :=
  [.event (.start early), .event (.start late), .event (.tick 80), .event (.start late)]

def movedBySwitch : List (Call 2) :=
  [.event .yield, .event .resume, .event (.tick 90), .event (.start early), .event (.tick 20), .event .yield,
    .event .resume]

def createdAgain : List (Call 2) := [.event (.start early), .event (.start late), .creat early 20 true false]

theorem members_of_holds {s : State n} {w : Which} {xs : List (Fin n)} (h : s.links.Holds w xs) : s.members w = xs :=
  Chain.walk_eq h (Nat.le_succ_of_le (Chain.length_le h))

theorem WellListed.owner {s : State n} {current overflow : List (Fin n)} (h : WellListed s current overflow)
    {w : Which} {i : Fin n} (hi : i ∈ s.members w) : (s.timers i).list = some w := by
  cases w with
  | timerList =>
    rw [members_of_holds h.holds_current] at hi
    exact h.current_owner i hi
  | overflowTimerList =>
    rw [members_of_holds h.holds_overflow] at hi
    exact h.overflow_owner i hi

/-- **Each of the three does its harm**: after each of these runs the lists are not as they
should be. A timer that is started twice is in both lists, and one of them is not sorted. -/
theorem lists_crossed :
    (∀ calls ∈ [startedTwice, movedBySwitch, createdAgain],
      ∃ t trace, (callMachine 2).run (boot twoTimers (lap - 100)) calls = some (t, trace) ∧
        ¬ ∃ current overflow, WellListed t current overflow) ∧
    ∃ t trace, (callMachine 2).run (boot twoTimers (lap - 100)) startedTwice = some (t, trace) ∧
      ¬ (t.members .timerList ++ t.members .overflowTimerList).Nodup ∧
      ¬ (t.members .timerList).Pairwise fun a b => (t.timers a).delay ≤ (t.timers b).delay := by
  have howner : ∀ calls ∈ [startedTwice, movedBySwitch, createdAgain],
      ((callMachine 2).run (boot twoTimers (lap - 100)) calls).map (fun r =>
        decide (∃ w i, i ∈ r.1.members w ∧ (r.1.timers i).list ≠ some w)) = some true := by
    decide +kernel
  have hcrossed : ((callMachine 2).run (boot twoTimers (lap - 100)) startedTwice).map (fun r =>
      decide (¬ (r.1.members .timerList ++ r.1.members .overflowTimerList).Nodup ∧
        ¬ (r.1.members .timerList).Pairwise fun a b => (r.1.timers a).delay ≤ (r.1.timers b).delay)) =
      some true := by
    decide +kernel
  refine ⟨fun calls hcalls => ?_, ?_⟩
  · obtain ⟨⟨t, trace⟩, hr, hlist⟩ := Option.map_eq_some_iff.mp (howner calls hcalls)
    obtain ⟨w, i, hi, hne⟩ := of_decide_eq_true hlist
    refine ⟨t, trace, hr, ?_⟩
    rintro ⟨current, overflow, hwell⟩
    exact hne (hwell.owner hi)
  · obtain ⟨⟨t, trace⟩, hr, hbad⟩ := Option.map_eq_some_iff.mp hcrossed
    exact ⟨t, trace, hr, of_decide_eq_true hbad⟩

end Qumios.MultiTimer
