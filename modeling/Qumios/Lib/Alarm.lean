import Mathlib

/-! Alarms that ring at given instants, and a clock that keeps one of them in view.

`due i t` says that alarm `i` is to ring at `t`; it may be anything, a table or a rule for every
week to come. A clock with a single hand looks at one alarm at a time: it is set right
(`IsSet`) if the hand is on an alarm that is due next, or on nothing if nothing is due any more.
From one instant to the next the hand stays where it is until its own instant comes, and what
has rung so far stays exactly what was due (`Rung`), provided no two alarms are due at once. -/
namespace Qumios.Alarm
variable {ι : Type} {due : ι → Nat → Prop} {start now t : Nat} {i : ι} {log : List (ι × Nat)}

def Ahead (due : ι → Nat → Prop) (now : Nat) : Set Nat := {t | now < t ∧ ∃ i, due i t}

def IsSet (due : ι → Nat → Prop) (now : Nat) : Option (ι × Nat) → Prop
  | none => Ahead due now = ∅
  | some (i, t) => due i t ∧ IsLeast (Ahead due now) t

/-- What has rung since `start` is what was due since, each once. -/
structure Rung (due : ι → Nat → Prop) (start now : Nat) (log : List (ι × Nat)) : Prop where
  mem : ∀ i t, (i, t) ∈ log ↔ start < t ∧ t ≤ now ∧ due i t
  nodup : log.Nodup

theorem ahead_succ : Ahead due (now + 1) ⊆ Ahead due now := fun _ ⟨hlater, hdue⟩ => ⟨by omega, hdue⟩

/-! ### One instant on -/

theorem IsSet.idle (hset : IsSet due now none) : IsSet due (now + 1) none :=
  Set.subset_empty_iff.mp (ahead_succ.trans hset.subset)

theorem IsSet.wait (hset : IsSet due now (some (i, t))) (ht : t ≠ now + 1) :
    IsSet due (now + 1) (some (i, t)) := by
  obtain ⟨hdue, ⟨hlater, hany⟩, hfirst⟩ := hset
  exact ⟨hdue, ⟨by omega, hany⟩, fun _ hu => hfirst (ahead_succ hu)⟩

theorem IsSet.quiet {hand : Option (ι × Nat)} (hset : IsSet due now hand)
    (hhand : ∀ j u, hand = some (j, u) → u ≠ now + 1) (j : ι) : ¬ due j (now + 1) := by
  intro hdue
  have hahead : now + 1 ∈ Ahead due now := ⟨Nat.lt_succ_self now, j, hdue⟩
  cases hand with
  | none => exact (Set.eq_empty_iff_forall_notMem.mp hset) _ hahead
  | some pair =>
    obtain ⟨-, ⟨hlater, -⟩, hfirst⟩ := hset
    have hle := hfirst hahead
    exact hhand pair.1 pair.2 rfl (by omega)

/-! ### What has rung -/

theorem Rung.fresh (due : ι → Nat → Prop) (start : Nat) : Rung due start start [] where
  mem i t := by
    constructor
    · intro hmem
      cases hmem
    · omega
  nodup := .nil

theorem Rung.quiet (hrung : Rung due start now log) (hquiet : ∀ j, ¬ due j (now + 1)) :
    Rung due start (now + 1) log where
  mem j u := by
    rw [hrung.mem]
    constructor
    · rintro ⟨hlater, hle, hdue⟩
      exact ⟨hlater, by omega, hdue⟩
    · rintro ⟨hlater, hle, hdue⟩
      have hne : u ≠ now + 1 := by
        rintro rfl
        exact hquiet j hdue
      exact ⟨hlater, by omega, hdue⟩
  nodup := hrung.nodup

theorem Rung.ring (hrung : Rung due start now log) (hstart : start ≤ now) (hdue : due i (now + 1))
    (honly : ∀ j, due j (now + 1) → j = i) : Rung due start (now + 1) ((i, now + 1) :: log) where
  mem j u := by
    rw [List.mem_cons, hrung.mem, Prod.mk.injEq]
    constructor
    · rintro (⟨rfl, rfl⟩ | ⟨hlater, hle, hbefore⟩)
      · exact ⟨by omega, le_rfl, hdue⟩
      · exact ⟨hlater, by omega, hbefore⟩
    · rintro ⟨hlater, hle, hu⟩
      by_cases hnew : u = now + 1
      · subst hnew
        exact .inl ⟨honly j hu, rfl⟩
      · exact .inr ⟨hlater, by omega, hu⟩
  nodup := by
    refine List.nodup_cons.mpr ⟨?_, hrung.nodup⟩
    rw [hrung.mem]
    omega

end Qumios.Alarm
