import Qumios.MultiTimer.Steps

/-! Stopping a timer.

`timer_list_switch` moves the overflow list to the place of the other one and leaves
the `list` of its timers as it was. `multi_timer_stop` then looks for the timer in the
wrong list, finds nothing, and reports success. On runs without such a call a stopped
timer is in no list until it is started again, whatever the clock does. -/
namespace Qumios.MultiTimer
open Run Linked

section Stopping
variable {n : Nat} {s s' : State n} {ls ls' : Which → List (Fin n)} {e : Event n} {o : Output n} {i j : Fin n}

def Stopped (i : Fin n) (past : List (Event n × Output n)) : Prop :=
  ∃ pre o mid, past = pre ++ (.stop i, o) :: mid ∧ ∀ x ∈ mid, x.1 ≠ .start i ∧ ∀ ms, x.1 ≠ .change i ms

def StopsEffective (trace : List (Event n × Output n)) : Prop :=
  ∀ pre e i called post, trace = pre ++ (e, .expired i called) :: post → ¬ Stopped i pre

variable {past : List (Event n × Output n)}

theorem stopped_snoc (h : Stopped i (past ++ [(e, o)])) :
    e = .stop i ∨ Stopped i past ∧ e ≠ .start i ∧ ∀ ms, e ≠ .change i ms := by
  obtain ⟨pre, o', mid, hsplit, hmid⟩ := h
  obtain ⟨-, hx, rfl⟩ | ⟨rest, rfl, hpast⟩ := split_snoc hsplit
  · cases hx
    exact .inl rfl
  · have hlast := hmid (e, o) (by simp)
    exact .inr ⟨⟨pre, o', rest, hpast, fun x hx => hmid x (by simp [hx])⟩, hlast⟩

theorem stopsEffective_snoc (h : StopsEffective past) (hlast : ∀ i called, o = .expired i called → ¬ Stopped i past) :
    StopsEffective (past ++ [(e, o)]) := by
  intro pre e' i called post hsplit
  obtain ⟨rfl, hx, rfl⟩ | ⟨rest, rfl, hrest⟩ := split_snoc hsplit
  · cases hx
    exact hlast i called rfl
  · exact h pre e' i called rest hrest

/-- A timer comes into the lists by being started. -/
theorem Effect.mem (heff : Effect s ls e s' o ls') {w : Which} (hj : j ∈ ls' w) :
    (∃ w', j ∈ ls w') ∨ e = .start j ∨ ∃ ms, e = .change j ms := by
  have hpop {i : Fin n} {tail : List (Fin n)} (hhead : ls .timerList = i :: tail)
      (hmem : j ∈ Function.update ls .timerList tail w) : ∃ w', j ∈ ls w' := by
    by_cases hw : w = .timerList
    · subst hw
      exact ⟨.timerList, by rw [hhead]; exact List.mem_cons_of_mem i hmem⟩
    · rw [Function.update_of_ne hw] at hmem
      exact ⟨w, hmem⟩
  cases heff with
  | tick ms => exact .inl ⟨w, hj⟩
  | yield => exact .inl ⟨w, hj⟩
  | leave y rest _ _ _ => exact .inl ⟨w, hj⟩
  | start i links _ =>
    rcases mem_of_mem_queue hj with rfl | hj
    · exact .inr (.inl rfl)
    · exact .inl ⟨w, hj⟩
  | stop i links => exact .inl ⟨w, List.mem_of_mem_erase hj⟩
  | change i ms links links' _ =>
    rcases mem_of_mem_queue hj with rfl | hj
    · exact .inr (.inr ⟨ms, rfl⟩)
    · exact .inl ⟨w, List.mem_of_mem_erase hj⟩
  | switch y rest _ _ _ =>
    cases w with
    | timerList => exact .inl ⟨.overflowTimerList, hj⟩
    | overflowTimerList => cases hj
  | expire y rest i tail _ hhead _ _ => exact .inl (hpop hhead hj)
  | reload y rest i tail links _ hhead _ _ =>
    rcases mem_of_mem_queue hj with rfl | hj
    · exact .inl ⟨.timerList, by rw [hhead]; exact List.mem_cons_self⟩
    · exact .inl (hpop hhead hj)

theorem Effect.expired_mem {called : Bool} (heff : Effect s ls e s' (.expired i called) ls') : i ∈ ls .timerList := by
  cases heff with
  | expire y rest i tail _ hhead _ _ => rw [hhead]; exact List.mem_cons_self
  | reload y rest i tail links _ hhead _ _ => rw [hhead]; exact List.mem_cons_self

theorem Effect.stop_not_mem (hnodup : ∀ w, (ls w).Nodup) (heff : Effect s ls (.stop i) s' o ls') (w : Which) : i ∉ ls' w := by
  cases heff with
  | stop i links => exact (hnodup w).not_mem_erase

/-- A stopped timer is in no list. -/
structure Effective (past : List (Event n × Output n)) (s : State n) (ls : Which → List (Fin n)) : Prop where
  lists : Lists s.links ls
  absent : ∀ i, Stopped i past → ∀ w, i ∉ ls w
  effective : StopsEffective past

theorem Effective.step (h : Effective past s ls) (hc : Straight s e) (hstep : step s e = some (s', o)) :
    ∃ ls', Effective (past ++ [(e, o)]) s' ls' := by
  obtain ⟨ls', hlists, heff⟩ := effect_of_step h.lists hc hstep
  refine ⟨ls', hlists, fun i hstopped w hmem => ?_, stopsEffective_snoc h.effective fun i called ho hstopped => ?_⟩
  · rcases stopped_snoc hstopped with rfl | ⟨hbefore, hstart, hchange⟩
    · exact heff.stop_not_mem h.lists.nodup w hmem
    · rcases heff.mem hmem with ⟨w', hmem⟩ | he | ⟨ms, he⟩
      · exact h.absent i hbefore w' hmem
      · exact hstart he
      · exact hchange ms he
  · subst ho
    exact h.absent i hstopped .timerList heff.expired_mem

end Stopping

/-- **Stopping is effective.** Whatever timers there are and whatever the clock does: in
every run in which each timer that is stopped or changed is in the list its `list` points
to, if it is in one, and each timer that is started is in no other list than it goes to, no
timer expires after it was stopped and before it is started again. -/
theorem stop_is_effective {n : Nat} (timers : Fin n → Timer) (clock : Nat) (events : List (Event n)) (t : State n)
    (trace : List (Event n × Output n)) (hc : (machine n).Meets Straight (boot timers clock) events)
    (hr : (machine n).run (boot timers clock) events = some (t, trace)) : StopsEffective trace := by
  have hboot : Effective [] (boot timers clock) fun _ => [] := by
    refine ⟨boot_lists timers clock, fun i hs => ?_, fun pre e i called post hsplit => ?_⟩
    · obtain ⟨pre, o, mid, hsplit, -⟩ := hs
      simp at hsplit
    · simp at hsplit
  have hrun := (machine n).run_invariant Straight (fun past s => ∃ ls, Effective past s ls)
    (fun past s e s' o hinv hc hstep => by
      obtain ⟨ls, hls⟩ := hinv
      exact hls.step hc hstep) ⟨_, hboot⟩ hc hr
  obtain ⟨ls, hls⟩ := hrun
  exact hls.effective

def oneShot : Fin 1 → Timer := fun _ => { period := 100, callback := true, autoReload := false }

def only : Fin 1 := Fin.last 0

def startedAndStopped : List (Event 1) :=
  [.yield, .resume, .start only, .stop only, .tick 200, .yield, .resume, .resume]

theorem stop_is_effective_across_a_lap :
    ∃ t trace, (machine 1).run (boot oneShot (lap - 10)) startedAndStopped = some (t, trace) ∧ StopsEffective trace := by
  obtain ⟨⟨t, trace⟩, hr⟩ : ∃ r, (machine 1).run (boot oneShot (lap - 10)) startedAndStopped = some r :=
    Option.isSome_iff_exists.mp (by decide +kernel)
  exact ⟨t, trace, hr, stop_is_effective oneShot (lap - 10) startedAndStopped t trace (by decide +kernel) hr⟩

/-- Started shortly before the clock wraps, moved with its list by the yield behind that,
and stopped with success. -/
def movedAndStopped : List (Event 1 × Output 1) :=
  [(.yield, .quiet), (.resume, .returned 0), (.tick 10, .quiet), (.start only, .ok), (.tick 20, .quiet),
    (.yield, .quiet), (.resume, .quiet), (.resume, .returned 80), (.stop only, .ok), (.tick 100, .quiet), (.yield, .quiet)]

/-- It is called all the same. -/
theorem stopped_timer_called :
    ∃ (timers : Fin 1 → Timer) (clock : Nat) (events : List (Event 1)) (t : State 1) (trace : List (Event 1 × Output 1)),
      (machine 1).run (boot timers clock) events = some (t, trace) ∧ ¬ StopsEffective trace := by
  have hrun : ((machine 1).run (boot oneShot (lap - 20)) (movedAndStopped.map Prod.fst ++ [.resume])).map Prod.snd =
      some (movedAndStopped ++ [(.resume, .expired 0 true)]) := by decide +kernel
  obtain ⟨⟨t, trace⟩, hr, htrace⟩ := Option.map_eq_some_iff.mp hrun
  have hstopped : Stopped 0 movedAndStopped :=
    ⟨movedAndStopped.take 8, .ok, [(.tick 100, .quiet), (.yield, .quiet)], rfl, by simp⟩
  exact ⟨oneShot, lap - 20, _, t, trace, hr, fun h => h movedAndStopped .resume 0 true [] htrace hstopped⟩

end Qumios.MultiTimer
