import Mathlib

/-! Machines that take one event at a time, and what holds along their runs.

A `Machine` either moves on an event, showing an output, or is stuck on it. A run
keeps its trace: every event with the output it drew. An invariant may read the
trace, so "what the state holds" can be said in terms of "what happened so far";
`run_invariant` is the induction over a run, done once. Some machines keep their
invariant only on steps that satisfy a condition on the event and the state it
meets: `Meets` asks it of every step of a run. `run_refines` is the same induction for
two machines side by side. -/
namespace Qumios.Run

/-- A point of a trace that has grown is the new end, or a point of the trace before. -/
theorem split_snoc {α : Type} {trace before after : List α} {x y : α} (h : trace ++ [x] = before ++ y :: after) :
    (before = trace ∧ y = x ∧ after = []) ∨ ∃ rest, after = rest ++ [x] ∧ trace = before ++ y :: rest := by
  rcases List.append_eq_append_iff.mp h with ⟨tail, hbefore, hx⟩ | ⟨tail, htrace, hy⟩
  · cases tail with
    | nil =>
      obtain ⟨rfl, rfl⟩ := List.cons.inj hx
      exact .inl ⟨by simpa using hbefore, rfl, rfl⟩
    | cons z tail => simp at hx
  · cases tail with
    | nil =>
      obtain ⟨rfl, rfl⟩ := List.cons.inj hy
      exact .inl ⟨by simpa using htrace.symm, rfl, rfl⟩
    | cons z rest =>
      obtain ⟨rfl, rfl⟩ := List.cons.inj hy
      exact .inr ⟨rest, rfl, htrace⟩

theorem forall_snoc {α : Type} {p : α → Prop} {l : List α} {a : α} (h : ∀ x ∈ l, p x) (ha : p a) :
    ∀ x ∈ l ++ [a], p x :=
  List.forall_mem_append.mpr ⟨h, List.forall_mem_singleton.mpr ha⟩

structure Machine (σ ε ω : Type) where
  step : σ → ε → Option (σ × ω)

namespace Machine
variable {σ ε ω : Type} (m : Machine σ ε ω)

/-- The state a list of events leads to, with the trace; `none` if a step is stuck. -/
def run (s : σ) : List ε → Option (σ × List (ε × ω))
  | [] => some (s, [])
  | e :: rest =>
    match m.step s e with
    | none => none
    | some (s', o) =>
      match run s' rest with
      | none => none
      | some (s'', trace) => some (s'', (e, o) :: trace)

@[simp] theorem run_nil (s : σ) : m.run s [] = some (s, []) := rfl

variable {s t : σ} {trace : List (ε × ω)} {C : σ → ε → Prop} {events : List ε}

variable {rest a b : List ε}

theorem run_cons_eq_some {e : ε} :
    m.run s (e :: rest) = some (t, trace) ↔
      ∃ s' o trace', m.step s e = some (s', o) ∧ m.run s' rest = some (t, trace') ∧
        trace = (e, o) :: trace' := by
  cases hs : m.step s e with
  | none => simp [run, hs]
  | some r =>
    obtain ⟨s', o⟩ := r
    cases hr : m.run s' rest with
    | none => simp [run, hs, hr]
    | some r =>
      obtain ⟨s'', trace'⟩ := r
      simp [run, hs, hr, eq_comm]

/-- A run splits at any point. -/
theorem run_append_eq_some :
    m.run s (a ++ b) = some (t, trace) ↔
      ∃ u ta tb, m.run s a = some (u, ta) ∧ m.run u b = some (t, tb) ∧ trace = ta ++ tb := by
  induction a generalizing s trace with
  | nil => simp
  | cons e rest ih =>
    simp only [List.cons_append, run_cons_eq_some, ih]
    constructor
    · rintro ⟨s', o, trace', hs, ⟨u, ta, tb, ha, hb, rfl⟩, rfl⟩
      exact ⟨u, (e, o) :: ta, tb, ⟨s', o, ta, hs, ha, rfl⟩, hb, rfl⟩
    · rintro ⟨u, _, tb, ⟨s', o, ta, hs, ha, rfl⟩, hb, rfl⟩
      exact ⟨s', o, ta ++ tb, hs, ⟨u, ta, tb, ha, hb, rfl⟩, rfl⟩

/-- Every step of the run meets `C`, asked of the state the step starts from. -/
def Meets (C : σ → ε → Prop) (s : σ) : List ε → Prop
  | [] => True
  | e :: rest => C s e ∧ ∀ s' o, m.step s e = some (s', o) → Meets C s' rest

theorem meets_cons {s' : σ} {e : ε} {o : ω} (hc : C s e) (hs : m.step s e = some (s', o))
    (hrest : m.Meets C s' rest) : m.Meets C s (e :: rest) := by
  refine ⟨hc, fun t o' ht => ?_⟩
  rw [hs] at ht
  cases ht
  exact hrest

theorem meets_true (s : σ) (events : List ε) : m.Meets (fun _ _ => True) s events := by
  induction events generalizing s with
  | nil => trivial
  | cons e rest ih => exact ⟨trivial, fun s' _ _ => ih s'⟩

theorem meets_and {P : ε → Prop} (hp : ∀ e ∈ events, P e) (hm : m.Meets C s events) :
    m.Meets (fun s e => P e ∧ C s e) s events := by
  induction events generalizing s with
  | nil => trivial
  | cons e rest ih =>
    exact ⟨⟨hp e (List.mem_cons_self ..), hm.1⟩, fun s' o hs =>
      ih (fun e' he => hp e' (List.mem_cons_of_mem _ he)) (hm.2 s' o hs)⟩

theorem meets_of_append (hm : m.Meets C s (a ++ b)) : m.Meets C s a := by
  induction a generalizing s with
  | nil => trivial
  | cons e rest ih => exact ⟨hm.1, fun s' o hs => ih (hm.2 s' o hs)⟩

theorem meets_append {u : σ} (hm : m.Meets C s (a ++ b)) (hr : m.run s a = some (u, trace)) :
    m.Meets C s a ∧ m.Meets C u b := by
  induction a generalizing s trace with
  | nil =>
    cases hr
    exact ⟨trivial, hm⟩
  | cons e rest ih =>
    obtain ⟨s', o, trace', hs, hrest, rfl⟩ := m.run_cons_eq_some.mp hr
    obtain ⟨hfirst, hthen⟩ := ih (hm.2 s' o hs) hrest
    exact ⟨m.meets_cons hm.1 hs hfirst, hthen⟩

/-- A concrete run is checked step by step. -/
instance decidableMeets (C : σ → ε → Prop) [∀ s e, Decidable (C s e)] :
    ∀ (s : σ) (events : List ε), Decidable (m.Meets C s events)
  | _, [] => isTrue trivial
  | s, e :: rest =>
    match h : m.step s e with
    | none => decidable_of_iff (C s e) ⟨fun hc => ⟨hc, fun _ _ hs => by simp [h] at hs⟩, fun hm => hm.1⟩
    | some (s', o) =>
      have : Decidable (m.Meets C s' rest) := decidableMeets C s' rest
      decidable_of_iff (C s e ∧ m.Meets C s' rest)
        ⟨fun hm => m.meets_cons hm.1 h hm.2, fun hm => ⟨hm.1, hm.2 s' o h⟩⟩

/-- The induction over a run, from a history `past` on: one step carries the
invariant, whatever the trace already says. -/
theorem run_invariant_from {Inv : List (ε × ω) → σ → Prop}
    (hstep : ∀ past s e s' o, Inv past s → C s e → m.step s e = some (s', o) → Inv (past ++ [(e, o)]) s')
    (past : List (ε × ω)) (s t : σ) (events : List ε) (trace : List (ε × ω)) (hs : Inv past s)
    (hc : m.Meets C s events) (hr : m.run s events = some (t, trace)) : Inv (past ++ trace) t := by
  induction events generalizing past s trace with
  | nil =>
    obtain ⟨rfl, rfl⟩ := hr
    simpa using hs
  | cons e rest ih =>
    obtain ⟨s', o, trace', hstep', hrest, rfl⟩ := m.run_cons_eq_some.mp hr
    have := ih (past ++ [(e, o)]) s' trace' (hstep past s e s' o hs hc.1 hstep')
      (hc.2 s' o hstep') hrest
    simpa using this

theorem run_invariant (C : σ → ε → Prop) (Inv : List (ε × ω) → σ → Prop)
    (hstep : ∀ past s e s' o, Inv past s → C s e → m.step s e = some (s', o) → Inv (past ++ [(e, o)]) s')
    (hs : Inv [] s) (hc : m.Meets C s events) (hr : m.run s events = some (t, trace)) : Inv trace t := by
  simpa using m.run_invariant_from hstep [] s t events trace hs hc hr

theorem run_invariant_always (Inv : List (ε × ω) → σ → Prop)
    (hstep : ∀ past s e s' o, Inv past s → m.step s e = some (s', o) → Inv (past ++ [(e, o)]) s') (hs : Inv [] s)
    (hr : m.run s events = some (t, trace)) : Inv trace t :=
  m.run_invariant _ Inv (fun past s e s' o h _ => hstep past s e s' o h) hs (m.meets_true s events) hr

/-- A run whose steps are all enabled comes to its end, with the invariant. -/
theorem run_total (C : σ → ε → Prop) (Inv : List (ε × ω) → σ → Prop)
    (hstep : ∀ past s e, Inv past s → C s e → ∃ s' o, m.step s e = some (s', o) ∧ Inv (past ++ [(e, o)]) s')
    (hs : Inv [] s) (hc : m.Meets C s events) : ∃ t trace, m.run s events = some (t, trace) ∧ Inv trace t := by
  suffices hfrom : ∀ past s, Inv past s → m.Meets C s events →
      ∃ t trace, m.run s events = some (t, trace) ∧ Inv (past ++ trace) t by
    simpa using hfrom [] s hs hc
  clear hs hc
  intro past s hs hc
  induction events generalizing past s with
  | nil => exact ⟨s, [], rfl, by simpa using hs⟩
  | cons e rest ih =>
    obtain ⟨s', o, hstep', hinv⟩ := hstep past s e hs hc.1
    obtain ⟨t, trace, hrun, hend⟩ := ih (past ++ [(e, o)]) s' hinv (hc.2 s' o hstep')
    exact ⟨t, (e, o) :: trace, m.run_cons_eq_some.mpr ⟨s', o, trace, hstep', hrun, rfl⟩, by simpa using hend⟩

/-- Where a condition tells which steps are enabled, it tells which runs come to their end. -/
theorem run_iff_meets (C : σ → ε → Prop) (Inv : σ → Prop)
    (henabled : ∀ s e, Inv s → ((∃ s' o, m.step s e = some (s', o)) ↔ C s e))
    (hstep : ∀ s e s' o, Inv s → m.step s e = some (s', o) → Inv s') (hs : Inv s) :
    (∃ t trace, m.run s events = some (t, trace)) ↔ m.Meets C s events := by
  induction events generalizing s with
  | nil => exact ⟨fun _ => trivial, fun _ => ⟨s, [], rfl⟩⟩
  | cons e rest ih =>
    constructor
    · rintro ⟨t, trace, hrun⟩
      obtain ⟨s', o, trace', hfirst, hrest, rfl⟩ := m.run_cons_eq_some.mp hrun
      exact m.meets_cons ((henabled s e hs).mp ⟨s', o, hfirst⟩) hfirst
        ((ih (hstep s e s' o hs hfirst)).mp ⟨t, trace', hrest⟩)
    · rintro ⟨hc, hrest⟩
      obtain ⟨s', o, hfirst⟩ := (henabled s e hs).mpr hc
      obtain ⟨t, trace, hrun⟩ := (ih (hstep s e s' o hs hfirst)).mpr (hrest s' o hfirst)
      exact ⟨t, (e, o) :: trace, m.run_cons_eq_some.mpr ⟨s', o, trace, hfirst, hrun, rfl⟩⟩

/-- The same with an invariant that reads the trace: it holds along a run, at every point of it. -/
theorem along_iff_meets (C : σ → ε → Prop) (Inv : List (ε × ω) → σ → Prop)
    (henabled : ∀ past s e, Inv past s → ((∃ s' o, m.step s e = some (s', o)) ↔ C s e))
    (hstep : ∀ past s e s' o, Inv past s → m.step s e = some (s', o) → Inv (past ++ [(e, o)]) s') (hs : Inv [] s) :
    (∀ past, past <+: events → ∃ t trace, m.run s past = some (t, trace) ∧ Inv trace t) ↔ m.Meets C s events := by
  have hiff : ∀ events, (∃ t trace, m.run s events = some (t, trace)) ↔ m.Meets C s events := fun events =>
    m.run_iff_meets C (fun s => ∃ past, Inv past s) (fun s e h => h.elim fun past hpast => henabled past s e hpast)
      (fun s e s' o h hfirst => h.elim fun past hpast => ⟨_, hstep past s e s' o hpast hfirst⟩) ⟨[], hs⟩
  constructor
  · intro h
    obtain ⟨t, trace, hrun, _⟩ := h events (List.prefix_refl events)
    exact (hiff events).mp ⟨t, trace, hrun⟩
  · rintro hm past ⟨rest, rfl⟩
    obtain ⟨t, trace, hrun⟩ := (hiff past).mpr (m.meets_of_append hm)
    exact ⟨t, trace, hrun, m.run_invariant_always Inv hstep hs hrun⟩

/-- **A machine that follows another one step by step shows what the other one shows.** -/
theorem run_refines {α : Type} (m : Machine σ ε ω) (a : Machine α ε ω) (C : σ → ε → Prop) (R : σ → α → Prop)
    (hstep : ∀ s x e, R s x → C s e → ∃ s' x' o, m.step s e = some (s', o) ∧ a.step x e = some (x', o) ∧ R s' x')
    {x : α} (hs : R s x) (hc : m.Meets C s events) :
    ∃ t y trace, m.run s events = some (t, trace) ∧ a.run x events = some (y, trace) ∧ R t y := by
  induction events generalizing s x with
  | nil => exact ⟨s, x, [], rfl, rfl, hs⟩
  | cons e rest ih =>
    obtain ⟨s', x', o, hm, ha, hs'⟩ := hstep s x e hs hc.1
    obtain ⟨t, y, trace, hmr, har, ht⟩ := ih hs' (hc.2 s' o hm)
    exact ⟨t, y, (e, o) :: trace, m.run_cons_eq_some.mpr ⟨s', o, trace, hm, hmr, rfl⟩,
      a.run_cons_eq_some.mpr ⟨x', o, trace, ha, har, rfl⟩, ht⟩

/-- Machines that take the same steps from the states of an invariant have the same runs. -/
theorem run_congr {m m' : Machine σ ε ω} (C : σ → ε → Prop) (Inv : σ → Prop)
    (hsame : ∀ s e, Inv s → C s e → m'.step s e = m.step s e)
    (hstep : ∀ s e s' o, Inv s → C s e → m.step s e = some (s', o) → Inv s') (hs : Inv s) (hc : m.Meets C s events) :
    m'.run s events = m.run s events := by
  induction events generalizing s with
  | nil => rfl
  | cons e rest ih =>
    rw [run, run, hsame s e hs hc.1]
    cases hnext : m.step s e with
    | none => rfl
    | some r =>
      dsimp only
      rw [ih (hstep s e r.1 r.2 hs hc.1 hnext) (hc.2 r.1 r.2 hnext)]

end Machine

end Qumios.Run
