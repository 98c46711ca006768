import Qumios.Lib.Run

/-! The buzzer of `buzzer.c`.

The counter that the timer runs down is the configured count itself, and `buzzer_open` does not set it again:
only the first open after `buzzer_create` or `buzzer_change` chirps as often as was configured. -/
namespace Qumios.Buzzer
open Run

/-- `buzzer_dev_t`, with the time of the timer if it runs; `configured` is what the counter was last set to. -/
structure Dev where
  on : Bool := false
  timer : Option Int := none
  chirpingTime : Int
  count : Int
  configured : Int := count
  deriving DecidableEq, Repr

inductive Event where
  | open
  | change (count chirpingTime : Int)
  | close
  | timeout
  deriving DecidableEq, Repr

/-- `CONFIG_BUZZER_CHRIP_INTERVAL`. -/
def chirpInterval : Int := 500

/-- A call, or the timer; the answer is whether `buzzer_on` was called. -/
def step (d : Dev) : Event → Option (Dev × Bool)
  | .open => some ({ d with on := true, timer := some d.chirpingTime }, true)
  | .change count chirpingTime => some (⟨true, some chirpingTime, chirpingTime, count, count⟩, true)
  | .close => some ({ d with on := false, timer := none }, false)
  | .timeout =>
    if d.timer = none then none
    else if d.on then some ({ d with on := false, timer := some chirpInterval }, false)
    else if d.count - 1 > 0 then
      some ({ d with on := true, timer := some d.chirpingTime, count := d.count - 1 }, true)
    else some ({ d with timer := none, count := d.count - 1 }, false)

def machine : Machine Dev Event Bool where
  step := step

def onPeriods (trace : List (Event × Bool)) : Nat := trace.countP (·.2)

/-- Every count is at least 1. -/
def Counted (_ : Dev) : Event → Prop
  | .change count _ => 1 ≤ count
  | _ => True

instance (d : Dev) : ∀ e, Decidable (Counted d e)
  | .change count _ => inferInstanceAs (Decidable (1 ≤ count))
  | .open | .close | .timeout => isTrue trivial

/-- The counter was not run down since it was set. -/
def Unspent (d : Dev) : Event → Prop
  | .open => d.configured = 1 ∨ d.count = d.configured
  | .change count _ => 1 ≤ count
  | _ => False

structure Configured (d : Dev) : Prop where
  pos : 1 ≤ d.configured
  le : d.count ≤ d.configured

theorem configured_step {d d' : Dev} {e : Event} {on : Bool} (h : Configured d) (hc : Counted d e)
    (hs : step d e = some (d', on)) : Configured d' := by
  have hle := h.le
  cases e with
  | «open» =>
    cases hs
    exact ⟨h.pos, hle⟩
  | change count chirpingTime =>
    cases hs
    exact ⟨hc, le_refl count⟩
  | close =>
    cases hs
    exact ⟨h.pos, hle⟩
  | timeout =>
    rw [step] at hs
    split at hs
    · cases hs
    · split at hs
      · cases hs
        exact ⟨h.pos, hle⟩
      · split at hs <;>
          (cases hs
           exact ⟨h.pos, by dsimp only; omega⟩)

/-- Two fires end a chirp. With the counter at 1 or below it was the last one; else the rest follows. -/
theorem chirps_from (n : Nat) (d : Dev) (time : Int) (hon : d.on = true) (htimer : d.timer = some time)
    (hcount : d.count = n + 1 ∨ n = 0 ∧ d.count ≤ 1) :
    ∃ d' trace, machine.run d (List.replicate (2 * (n + 1)) .timeout) = some (d', trace) ∧
      onPeriods trace = n ∧ d'.on = false ∧ d'.timer = none := by
  have hoff : step d .timeout = some ({ d with on := false, timer := some chirpInterval }, false) := by
    rw [step, htimer, if_neg nofun, hon]
    rfl
  induction n generalizing d time with
  | zero =>
    have hlast : ¬ d.count - 1 > 0 := by omega
    refine ⟨{ d with on := false, timer := none, count := d.count - 1 }, [(.timeout, false), (.timeout, false)], ?_,
      rfl, rfl, rfl⟩
    refine machine.run_cons_eq_some.mpr ⟨_, _, _, hoff, machine.run_cons_eq_some.mpr ⟨_, _, _, ?_, rfl, rfl⟩, rfl⟩
    exact if_neg hlast
  | succ n ih =>
    have hmore : d.count - 1 > 0 := by omega
    let d₁ : Dev := { d with on := true, timer := some d.chirpingTime, count := d.count - 1 }
    obtain ⟨d', trace, hrun, hperiods, hend⟩ := ih d₁ d.chirpingTime rfl rfl (.inl (by dsimp only [d₁]; omega)) rfl
    have hone : onPeriods ((.timeout, false) :: (.timeout, true) :: trace) = onPeriods trace + 1 := by simp [onPeriods]
    refine ⟨d', _, ?_, hone.trans (congrArg (· + 1) hperiods), hend⟩
    rw [show 2 * (n + 1 + 1) = 2 * (n + 1) + 1 + 1 from rfl, List.replicate_succ, List.replicate_succ]
    refine machine.run_cons_eq_some.mpr ⟨_, _, _, hoff, machine.run_cons_eq_some.mpr ⟨d₁, _, _, ?_, hrun, rfl⟩, rfl⟩
    exact if_pos hmore

/-- **Chirps**: from every state, an open whose counter was not run down, or a change, chirps the configured
number of times if only the timer follows, and the buzzer is then off with its timer at rest. -/
theorem chirps_configured (count chirpingTime : Int) (hcount : 1 ≤ count) (events : List Event) {d : Dev}
    {trace : List (Event × Bool)}
    (hm : machine.Meets Counted { chirpingTime := chirpingTime, count := count } events)
    (hr : machine.run { chirpingTime := chirpingTime, count := count } events = some (d, trace)) (call : Event)
    (hu : Unspent d call) :
    ∃ d₁ d' trace', machine.step d call = some (d₁, true) ∧
      machine.run d₁ (List.replicate (2 * d₁.configured.toNat) .timeout) = some (d', trace') ∧
      1 + onPeriods trace' = d₁.configured.toNat ∧ d'.on = false ∧ d'.timer = none := by
  have hd : Configured d :=
    machine.run_invariant Counted (fun _ => Configured) (fun _ d e d' on h hc hs => configured_step h hc hs)
      ⟨hcount, le_refl count⟩ hm hr
  have hcall : ∃ d₁ time, machine.step d call = some (d₁, true) ∧ d₁.on = true ∧ d₁.timer = some time ∧
      1 ≤ d₁.configured ∧ (d₁.count = d₁.configured ∨ d₁.configured = 1 ∧ d₁.count ≤ 1) := by
    cases call with
    | «open» =>
      refine ⟨_, _, rfl, rfl, rfl, hd.pos, ?_⟩
      have hle := hd.le
      have hu' : d.configured = 1 ∨ d.count = d.configured := hu
      dsimp only
      omega
    | change count chirpingTime => exact ⟨_, _, rfl, rfl, rfl, hu, .inl rfl⟩
    | close => exact hu.elim
    | timeout => exact hu.elim
  obtain ⟨d₁, time, hstep, hon, htimer, hpos, hat⟩ := hcall
  obtain ⟨d', trace', hrun, hperiods, hend⟩ :=
    chirps_from (d₁.configured.toNat - 1) d₁ time hon htimer (by omega)
  rw [show d₁.configured.toNat - 1 + 1 = d₁.configured.toNat by omega] at hrun
  exact ⟨d₁, d', trace', hstep, hrun, by omega, hend⟩

/-- A buzzer of three chirps is closed and opened. -/
theorem chirps_configured_three :
    ∃ d₁ d' trace', machine.step { chirpingTime := 50, count := 3 } .open = some (d₁, true) ∧
      machine.run d₁ (List.replicate (2 * d₁.configured.toNat) .timeout) = some (d', trace') ∧
      1 + onPeriods trace' = d₁.configured.toNat ∧ d'.on = false ∧ d'.timer = none :=
  chirps_configured 3 50 (by decide) [.close] (by decide) rfl .open (.inr rfl)

/-- Two chirps are configured: the first open gives two, the second one. -/
theorem second_open_chirps_once :
    ∃ d, (machine.run { chirpingTime := 50, count := 2 } (.open :: List.replicate 4 .timeout)).map
        (fun r => (r.1, onPeriods r.2)) = some (d, 2) ∧ d.timer = none ∧
      (machine.run d (.open :: List.replicate 2 .timeout)).map (fun r => (r.1.timer, r.1.on, onPeriods r.2)) =
        some (none, false, 1) :=
  ⟨⟨false, none, 50, 0, 2⟩, rfl, rfl, rfl⟩

/-- **What an open gives**, from every state: as many periods of sound as the counter says, at least one, and rest. -/
theorem open_chirps (d : Dev) :
    ∃ (n : Nat) (d' : _) (trace : _), n = max 1 d.count ∧
      machine.run d (.open :: List.replicate (2 * n) .timeout) = some (d', trace) ∧ onPeriods trace = n ∧
      d'.on = false ∧ d'.timer = none := by
  obtain ⟨d', trace, hrun, hperiods, hend⟩ :=
    chirps_from (d.count - 1).toNat { d with on := true, timer := some d.chirpingTime } _ rfl rfl
      (by dsimp only; omega)
  refine ⟨_, d', _, ?_, machine.run_cons_eq_some.mpr ⟨_, _, _, rfl, hrun, rfl⟩, ?_, hend⟩
  · omega
  · simpa [onPeriods] using hperiods

end Qumios.Buzzer
