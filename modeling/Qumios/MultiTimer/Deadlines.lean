import Qumios.MultiTimer.Steps

/-! Deadlines.

What timers are for needs no lists: `Service` keeps the deadline of every timer that
runs, in time that does not wrap. A timer may expire when its deadline is not after
the time the yield began, and a yield may return when no deadline is left that is not.

The two lists implement this as long as they are the lists of the lap the clock is in.
They are not between a wrap of the clock and the yield that notices it, nor after a
yield that reads the clock on both sides of a wrap (`Tame`). -/
namespace Qumios.MultiTimer
open Run Linked List Function

/-! ### The service -/

structure Service (n : Nat) where
  clock : Nat
  period : Fin n → Nat
  reloads : Fin n → Bool
  due : Fin n → Option Nat
  /-- When the yields began that have not returned. -/
  pending : List Nat

namespace Service
variable {n : Nat}

def after (v : Service n) : Event n × Output n → Service n
  | (.tick ms, _) => { v with clock := v.clock + ms }
  | (.start i, _) => { v with due := Function.update v.due i (some (v.clock + v.period i)) }
  | (.stop i, _) => { v with due := Function.update v.due i none }
  | (.change i ms, _) =>
    { v with period := Function.update v.period i ms, due := Function.update v.due i (some (v.clock + ms)) }
  | (.yield, _) => { v with pending := v.clock :: v.pending }
  | (.resume, .expired i _) =>
    { v with due := Function.update v.due i (if v.reloads i then v.pending.head?.map (· + v.period i) else none) }
  | (.resume, .returned _) => { v with pending := v.pending.tail }
  | (.resume, _) => v

@[simp] theorem after_reload (v : Service n) (i : Fin n) (called : Bool) {began : Nat} (hp : v.pending.head? = some began)
    (hi : v.reloads i = true) :
    v.after (.resume, .expired i called) = { v with due := Function.update v.due i (some (began + v.period i)) } := by
  simp [after, hp, hi]

@[simp] theorem after_expire (v : Service n) (i : Fin n) (called : Bool) (hi : v.reloads i = false) :
    v.after (.resume, .expired i called) = { v with due := Function.update v.due i none } := by
  simp [after, hi]

def replay (v : Service n) (trace : List (Event n × Output n)) : Service n := trace.foldl after v

/-- A timer expires in a yield that began at its deadline or later; a yield leaves none
behind that was due when it began. -/
def Allows (v : Service n) : Output n → Prop
  | .expired i _ => ∃ began d, v.pending.head? = some began ∧ v.due i = some d ∧ d ≤ began ∧ began ≤ v.clock
  | .returned _ => ∃ began, v.pending.head? = some began ∧ ∀ i d, v.due i = some d → began < d
  | _ => True

/-- The timers whose deadline was not after `began`. -/
def overdue (v : Service n) (began : Nat) : Set (Fin n) := { i | ∃ d, v.due i = some d ∧ d ≤ began }

end Service

def Timely {n : Nat} (v : Service n) (trace : List (Event n × Output n)) : Prop :=
  ∀ pre e o post, trace = pre ++ (e, o) :: post → (v.replay pre).Allows o

/-- No yield goes on for ever: each of its rounds takes one from the timers that were due
when it began, and nothing adds to them. -/
def Dwindles {n : Nat} (v : Service n) (trace : List (Event n × Output n)) : Prop :=
  ∀ pre e o post, trace = pre ++ (e, o) :: post → ∀ began ∈ (v.replay pre).pending,
    (v.replay (pre ++ [(e, o)])).overdue began ⊆ (v.replay pre).overdue began ∧
      ∀ i called, o = .expired i called → (v.replay pre).pending.head? = some began →
        i ∉ (v.replay (pre ++ [(e, o)])).overdue began

/-! ### Deadlines and lists -/

def Which.ahead : Which → Nat
  | .timerList => 0
  | .overflowTimerList => 1

/-- The lists show the deadlines, in lap `r`. -/
structure Dated {n : Nat} (due : Fin n → Option Nat) (delay : Fin n → Nat) (ls : Which → List (Fin n)) (r : Nat) : Prop where
  mem : ∀ w i, i ∈ ls w → due i = some ((r + w.ahead) * lap + delay i)
  absent : ∀ i, (∀ w, i ∉ ls w) → due i = none
  small : ∀ w i, i ∈ ls w → delay i < lap
  sorted : ∀ w, (ls w).Pairwise fun a b => delay a ≤ delay b

theorem target_deadline {t r period : Nat} (ht : t / lap = r) (hperiod : period < lap) :
    (r + (target period (u32 t)).ahead) * lap + u32 (period + u32 t) = t + period := by
  by_cases hwrap : u32 (period + u32 t) < u32 t
  · rw [show target period (u32 t) = .overflowTimerList from if_pos hwrap, Which.ahead]
    simp only [u32, lap] at *
    omega
  · rw [show target period (u32 t) = .timerList from if_neg hwrap, Which.ahead]
    simp only [u32, lap] at *
    omega

section Dated
variable {n : Nat} {due : Fin n → Option Nat} {delay : Fin n → Nat} {ls : Which → List (Fin n)} {r : Nat} {i : Fin n}

theorem Dated.congr {delay' : Fin n → Nat} (h : Dated due delay ls r) (heq : ∀ w, ∀ j ∈ ls w, delay' j = delay j) :
    Dated due delay' ls r := by
  refine ⟨fun w j hj => ?_, h.absent, fun w j hj => ?_, fun w => ?_⟩
  · rw [heq w j hj]
    exact h.mem w j hj
  · rw [heq w j hj]
    exact h.small w j hj
  · refine (h.sorted w).imp_of_mem fun ha hb hle => ?_
    rwa [heq w _ ha, heq w _ hb]

theorem Dated.without {ls' : Which → List (Fin n)} (h : Dated due delay ls r)
    (hmem : ∀ w j, j ∈ ls' w ↔ j ≠ i ∧ j ∈ ls w) (hsub : ∀ w, (ls' w).Sublist (ls w)) :
    Dated (Function.update due i none) delay ls' r := by
  refine ⟨fun w j hj => ?_, fun j hj => ?_, fun w j hj => h.small w j ((hmem w j).mp hj).2,
    fun w => (h.sorted w).sublist (hsub w)⟩
  · rw [update_of_ne ((hmem w j).mp hj).1]
    exact h.mem w j ((hmem w j).mp hj).2
  · by_cases hji : j = i
    · rw [hji, update_self]
    · rw [update_of_ne hji]
      exact h.absent j fun w hjw => hj w ((hmem w j).mpr ⟨hji, hjw⟩)

/-- A timer is put into the list it goes to at time `t`. -/
theorem Dated.queue {s : State n} {t : Nat} (h : Dated due (fun j => (s.timers j).delay) ls r) (hnodup : ∀ w, (ls w).Nodup)
    (hi : ∀ w, i ∈ ls w → w = target (s.timers i).period (u32 t)) (ht : t / lap = r) (hperiod : (s.timers i).period < lap) :
    Dated (Function.update due i (some (t + (s.timers i).period))) (s.delayAfter i (u32 t)) (queue s ls i (u32 t)) r := by
  have hother (j : Fin n) (hj : j ≠ i) : s.delayAfter i (u32 t) j = (s.timers j).delay := if_neg hj
  have hself : s.delayAfter i (u32 t) i = u32 ((s.timers i).period + u32 t) := if_pos rfl
  refine ⟨fun w j hj => ?_, fun j hj => ?_, fun w j hj => ?_, fun w => ?_⟩
  · rw [mem_queue hnodup hi] at hj
    by_cases hji : j = i
    · subst hji
      rw [if_pos rfl] at hj
      rw [update_self, hself, hj, target_deadline ht hperiod]
    · rw [if_neg hji] at hj
      rw [update_of_ne hji, hother j hji]
      exact h.mem w j hj
  · have hji : j ≠ i := by
      intro hji
      subst hji
      exact hj _ ((mem_queue hnodup hi).mpr (by rw [if_pos rfl]))
    rw [update_of_ne hji]
    exact h.absent j fun w hjw => hj w ((mem_queue hnodup hi).mpr (by rwa [if_neg hji]))
  · by_cases hji : j = i
    · rw [hji, hself]
      exact Nat.mod_lt _ (by decide)
    · rw [mem_queue hnodup hi, if_neg hji] at hj
      rw [hother j hji]
      exact h.small w j hj
  · exact pairwise_queue hnodup h.sorted hi w

/-- The overflow list becomes the list of the next lap. -/
theorem Dated.switch (h : Dated due delay ls r) (hempty : ls .timerList = []) : Dated due delay (switched ls) (r + 1) := by
  refine ⟨fun w i hi => ?_, fun i hi => h.absent i fun w hw => ?_, fun w i hi => ?_, fun w => ?_⟩
  · cases w with
    | timerList => exact h.mem .overflowTimerList i hi
    | overflowTimerList => cases hi
  · cases w with
    | timerList =>
      rw [hempty] at hw
      cases hw
    | overflowTimerList => exact hi .timerList hw
  · cases w with
    | timerList => exact h.small .overflowTimerList i hi
    | overflowTimerList => cases hi
  · cases w with
    | timerList => exact h.sorted .overflowTimerList
    | overflowTimerList => exact List.Pairwise.nil

end Dated

/-! ### Runs -/

section Runs
variable {n : Nat}

/-- The lap of the clock the lists are for. -/
def State.round (s : State n) : Nat :=
  match s.yields with
  | [] => s.lastSeen / lap
  | y :: _ =>
    match y.phase with
    | .overflowing => y.begun / lap - 1
    | .processing => y.begun / lap

/-- The next round of the topmost yield is its last. -/
def State.through (s : State n) : Bool :=
  match s.yields with
  | [] => false
  | y :: _ =>
    y.phase == .processing &&
      match s.links.head .timerList with
      | none => true
      | some i => y.nowTime < (s.timers i).delay

/-- Periods are positive and below 2^31, and yields not further apart than 2^31: at the
first one, which finds a `last_time` of 0, the clock has not wrapped yet. -/
def Regular (s : State n) : Event n → Prop
  | .change _ ms => 0 < ms ∧ ms < 2 ^ 31
  | .yield => s.clock ≤ s.lastSeen + 2 ^ 31 ∨ s.clock / lap = s.lastSeen / lap
  | _ => True

instance (s : State n) : ∀ e : Event n, Decidable (Regular s e)
  | .tick _ => inferInstanceAs (Decidable True)
  | .start _ => inferInstanceAs (Decidable True)
  | .stop _ => inferInstanceAs (Decidable True)
  | .change _ _ => inferInstanceAs (Decidable (_ ∧ _))
  | .yield => inferInstanceAs (Decidable (_ ∨ _))
  | .resume => inferInstanceAs (Decidable True)

/-- Nothing is started between a wrap of the clock and the switch of the lists; no yield is
entered from a callback of one that noticed a wrap, or behind a wrap; no timer that reloads
is left over from the lap before; and a yield returns in the lap it began in. -/
def InLap (s : State n) : Event n → Prop
  | .start _ => s.clock / lap = s.round
  | .change _ _ => s.clock / lap = s.round
  | .yield =>
    (s.yields ≠ [] → s.clock / lap = s.round ∧ s.lastSeen / lap = s.round) ∧
      (s.now < s.lastTime → ∀ i ∈ s.members .timerList, (s.timers i).autoReload = false)
  | .resume => s.through = true → s.clock / lap = s.round
  | _ => True

instance (s : State n) : ∀ e : Event n, Decidable (InLap s e)
  | .tick _ => inferInstanceAs (Decidable True)
  | .start _ => inferInstanceAs (Decidable (_ = _))
  | .stop _ => inferInstanceAs (Decidable True)
  | .change _ _ => inferInstanceAs (Decidable (_ = _))
  | .yield => inferInstanceAs (Decidable (_ ∧ _))
  | .resume => inferInstanceAs (Decidable (_ → _))

def Tame (s : State n) (e : Event n) : Prop := Straight s e ∧ InLap s e

instance (s : State n) (e : Event n) : Decidable (Tame s e) := inferInstanceAs (Decidable (_ ∧ _))

/-- The service and the state, in lap `r`. -/
structure Keeps (v : Service n) (s : State n) (ls : Which → List (Fin n)) (r : Nat) : Prop where
  lists : Lists s.links ls
  dated : Dated v.due (fun j => (s.timers j).delay) ls r
  clock : v.clock = s.clock
  period : ∀ i, v.period i = (s.timers i).period
  bounded : ∀ i, 0 < (s.timers i).period ∧ (s.timers i).period < 2 ^ 31
  reloads : ∀ i, v.reloads i = (s.timers i).autoReload
  pending : v.pending = s.yields.map Yield.begun
  seen : s.lastSeen ≤ s.clock
  idle : s.yields = [] → s.lastSeen / lap = r
  begun : ∀ y ∈ s.yields, y.begun ≤ s.clock
  processing : ∀ y ∈ s.yields, y.phase = .processing → y.begun / lap = r
  overflowing : ∀ y ∈ s.yields, y.phase = .overflowing →
    s.yields = [y] ∧ y.begun / lap = r + 1 ∧ ∀ i ∈ ls .timerList, (s.timers i).autoReload = false

variable {v : Service n} {s s' : State n} {ls ls' : Which → List (Fin n)} {r : Nat} {e : Event n} {o : Output n}

theorem Keeps.round_eq (h : Keeps v s ls r) : s.round = r := by
  rw [State.round]
  cases hy : s.yields with
  | nil => exact h.idle hy
  | cons y rest =>
    have hmem : y ∈ s.yields := by rw [hy]; exact mem_cons_self
    cases hphase : y.phase with
    | processing => simpa [hphase] using h.processing y hmem hphase
    | overflowing => simp [hphase, (h.overflowing y hmem hphase).2.1]

theorem u32_le_of_same_lap {a b : Nat} (hle : a ≤ b) (hlap : b / lap = a / lap) : u32 a ≤ u32 b := by
  simp only [u32, lap] at *
  omega

theorem u32_lt_of_wrap {a b : Nat} (hle : a ≤ b) (hnear : b ≤ a + 2 ^ 31) (hlap : b / lap ≠ a / lap) :
    u32 b < u32 a ∧ b / lap = a / lap + 1 := by
  simp only [u32, lap] at *
  omega

theorem Keeps.tick (h : Keeps v s ls r) (ms : Nat) :
    Keeps { v with clock := v.clock + ms } { s with clock := s.clock + ms } ls r := by
  refine { h with clock := by rw [h.clock], seen := Nat.le_add_right_of_le h.seen, begun := fun y hy => ?_ }
  exact Nat.le_add_right_of_le (h.begun y hy)

variable {i : Fin n} {links : Links Which (Fin n)} {tail : List (Fin n)}

section
variable (h : Keeps v s ls r)
include h

/-- A timer gets the deadline a period behind `t`. -/
theorem Keeps.queued {t : Nat} (ht : t / lap = r) (hi : ∀ w, i ∈ ls w → w = target (s.timers i).period (u32 t))
    (hlists : Lists links (queue s ls i (u32 t))) (hphase : ∀ y ∈ s.yields, y.phase = .processing) :
    Keeps { v with due := Function.update v.due i (some (t + v.period i)) } (s.queued i (u32 t) links)
      (queue s ls i (u32 t)) r where
  lists := hlists
  dated := by
    have hperiod : (s.timers i).period < lap := Nat.lt_trans (h.bounded i).2 (by decide)
    simp only [queued_delay, h.period i]
    exact h.dated.queue h.lists.nodup hi ht hperiod
  clock := h.clock
  period j := by rw [queued_period]; exact h.period j
  bounded j := by rw [queued_period]; exact h.bounded j
  reloads j := by rw [queued_autoReload]; exact h.reloads j
  pending := h.pending
  seen := h.seen
  idle := h.idle
  begun := h.begun
  processing := h.processing
  overflowing y hy hover := by
    rw [hphase y hy] at hover
    cases hover

theorem Keeps.unqueued (hlists : Lists links (unqueue ls i)) :
    Keeps { v with due := Function.update v.due i none } (s.unqueued i links) (unqueue ls i) r := by
  have hfields (j : Fin n) : ((s.unqueued i links).timers j).delay = (s.timers j).delay ∧
      ((s.unqueued i links).timers j).period = (s.timers j).period ∧
      ((s.unqueued i links).timers j).autoReload = (s.timers j).autoReload := by
    by_cases hj : j = i
    · subst hj
      simp [State.unqueued]
    · simp [State.unqueued, hj]
  refine ⟨hlists, ?_, h.clock, fun j => ?_, fun j => ?_, fun j => ?_, h.pending, h.seen, h.idle, h.begun, h.processing,
    fun y hy hover => ?_⟩
  · simp only [(hfields _).1]
    exact h.dated.without (fun w j => mem_unqueue h.lists.nodup) fun w => erase_sublist
  · rw [(hfields j).2.1]
    exact h.period j
  · rw [(hfields j).2.1]
    exact h.bounded j
  · rw [(hfields j).2.2]
    exact h.reloads j
  · obtain ⟨hone, hlap, hauto⟩ := h.overflowing y hy hover
    refine ⟨hone, hlap, fun j hj => ?_⟩
    rw [(hfields j).2.2]
    exact hauto j (mem_of_mem_erase hj)

theorem Keeps.recreated {ms : Nat} (hlists : Lists (s.recreated i ms links).links (unqueue ls i))
    (hms : 0 < ms ∧ ms < 2 ^ 31) (hphase : ∀ y ∈ s.yields, y.phase = .processing) :
    Keeps { v with period := Function.update v.period i ms, due := Function.update v.due i none }
      (s.recreated i ms links) (unqueue ls i) r := by
  have hself : ((s.recreated i ms links).timers i).period = ms ∧
      ((s.recreated i ms links).timers i).autoReload = (s.timers i).autoReload := by
    simp [State.recreated, State.unqueued, multiTimerCreat, State.setTimer]
  have hother (j : Fin n) (hj : j ≠ i) : (s.recreated i ms links).timers j = s.timers j := by
    simp [State.recreated, State.unqueued, multiTimerCreat, State.setTimer, hj]
  refine ⟨hlists, ?_, h.clock, fun j => ?_, fun j => ?_, fun j => ?_, h.pending, h.seen, h.idle, h.begun, h.processing,
    fun y hy hover => ?_⟩
  · refine (h.dated.without (fun w j => mem_unqueue h.lists.nodup) fun w => erase_sublist).congr fun w j hj => ?_
    rw [hother j ((mem_unqueue h.lists.nodup).mp hj).1]
  · show Function.update v.period i ms j = _
    by_cases hj : j = i
    · subst hj
      rw [hself.1, update_self]
    · rw [hother j hj, update_of_ne hj]
      exact h.period j
  · by_cases hj : j = i
    · subst hj
      rw [hself.1]
      exact hms
    · rw [hother j hj]
      exact h.bounded j
  · by_cases hj : j = i
    · subst hj
      rw [hself.2]
      exact h.reloads j
    · rw [hother j hj]
      exact h.reloads j
  · rw [hphase y hy] at hover
    cases hover

theorem Keeps.popped (hhead : ls .timerList = i :: tail) :
    Keeps { v with due := Function.update v.due i none } (s.popped i) (Function.update ls .timerList tail) r := by
  have hmem (w : Which) (j : Fin n) : j ∈ Function.update ls .timerList tail w ↔ j ≠ i ∧ j ∈ ls w := by
    by_cases hj : j = i
    · subst hj
      simp [h.lists.pop_not_mem hhead w]
    · by_cases hw : w = .timerList
      · subst hw
        rw [update_self, hhead]
        simp [hj]
      · rw [update_of_ne hw]
        simp [hj]
  refine ⟨h.lists.pop hhead, h.dated.without hmem fun w => ?_, h.clock, h.period, h.bounded, h.reloads, h.pending, h.seen,
    h.idle, h.begun, h.processing, fun y hy hover => ?_⟩
  · by_cases hw : w = .timerList
    · subst hw
      rw [update_self, hhead]
      exact sublist_cons_self i tail
    · rw [update_of_ne hw]
  · obtain ⟨hone, hlap, hauto⟩ := h.overflowing y hy hover
    exact ⟨hone, hlap, fun j hj => hauto j ((hmem .timerList j).mp hj).2⟩
end

variable {rest : List Yield} {y : Yield}

section
variable (h : Keeps v s ls r)
include h

theorem Keeps.called (hy : s.yields = y :: rest) (i : Fin n) : Keeps v (s.called y rest i) ls r := by
  have hmem : y ∈ s.yields := by rw [hy]; exact mem_cons_self
  have hrest (x : Yield) (hx : x ∈ rest) : x ∈ s.yields := by rw [hy]; exact mem_cons_of_mem y hx
  refine ⟨h.lists, h.dated, h.clock, h.period, h.bounded, h.reloads, ?_, h.seen, fun hnil => (by cases hnil),
    fun x hx => ?_, fun x hx hp => ?_, fun x hx hover => ?_⟩
  · rw [h.pending, hy]
    rfl
  · rcases mem_cons.mp hx with rfl | hx
    · exact h.begun y hmem
    · exact h.begun x (hrest x hx)
  · rcases mem_cons.mp hx with rfl | hx
    · exact h.processing y hmem hp
    · exact h.processing x (hrest x hx) hp
  · rcases mem_cons.mp hx with rfl | hx
    · obtain ⟨hone, hlap, hauto⟩ := h.overflowing y hmem hover
      rw [hy] at hone
      obtain ⟨-, rfl⟩ := List.cons.inj hone
      exact ⟨rfl, hlap, hauto⟩
    · -- a yield that empties the list of the last lap is the only one
      obtain ⟨hone, -, -⟩ := h.overflowing x (hrest x hx) hover
      rw [hy] at hone
      obtain ⟨-, rfl⟩ := List.cons.inj hone
      cases hx

theorem Keeps.all_processing (hlap : s.clock / lap = r) : ∀ y ∈ s.yields, y.phase = .processing := by
  intro y hy
  cases hphase : y.phase with
  | processing => rfl
  | overflowing =>
    have hbegun := (h.overflowing y hy hphase).2.1
    have hle := h.begun y hy
    simp only [lap] at hbegun hlap
    omega

/-- Nor one below a yield that has made its switch. -/
theorem Keeps.below_processing (hy : s.yields = y :: rest) (hphase : y.phase = .processing) :
    ∀ x ∈ s.yields, x.phase = .processing := by
  intro x hx
  cases hx' : x.phase with
  | processing => rfl
  | overflowing =>
    obtain ⟨hone, -, -⟩ := h.overflowing x hx hx'
    rw [hy] at hone
    obtain ⟨rfl, -⟩ := List.cons.inj hone
    rw [hphase] at hx'
    cases hx'

/-- A yield is entered. -/
theorem Keeps.entered (hreg : Regular s .yield) (hlap : InLap s .yield) :
    Keeps { v with pending := v.clock :: v.pending } (yieldEnter s) ls r := by
  obtain ⟨hnested, hleft⟩ := hlap
  have hpending : v.clock :: v.pending = ((yieldEnter s).yields).map Yield.begun := by
    rw [h.pending, h.clock]
    rfl
  have hbegun : ∀ y ∈ (yieldEnter s).yields, y.begun ≤ s.clock := forall_mem_cons.mpr ⟨Nat.le_refl _, h.begun⟩
  by_cases hsame : s.clock / lap = r
  · -- no wrap, and none noticed
    have hseen : s.lastSeen / lap = r := by
      by_cases hnil : s.yields = []
      · exact h.idle hnil
      · rw [(hnested hnil).2, h.round_eq]
    have hle := u32_le_of_same_lap h.seen (hsame.trans hseen.symm)
    have hnot : ¬ s.now < s.lastTime := Nat.not_lt.mpr hle
    have hphase : ∀ y ∈ (yieldEnter s).yields, y.phase = .processing :=
      forall_mem_cons.mpr ⟨by simp [hnot], h.all_processing hsame⟩
    refine ⟨h.lists, h.dated, h.clock, h.period, h.bounded, h.reloads, hpending, h.seen, fun hnil => (by cases hnil),
      hbegun, forall_mem_cons.mpr ⟨fun _ => hsame, h.processing⟩, fun y hy hover => ?_⟩
    rw [hphase y hy] at hover
    cases hover
  · -- a wrap: there is no other yield, and it is noticed
    have hnil : s.yields = [] := by
      by_contra hne
      exact hsame ((hnested hne).1.trans h.round_eq)
    have hseen := h.idle hnil
    have hnear : s.clock ≤ s.lastSeen + 2 ^ 31 := by
      rcases hreg with hnear | heq
      · exact hnear
      · exact absurd (heq.trans hseen) hsame
    obtain ⟨hlt, hnext⟩ := u32_lt_of_wrap h.seen hnear fun heq => hsame (heq.trans hseen)
    have hover : s.now < s.lastTime := hlt
    have hone : (yieldEnter s).yields = [⟨s.clock, true, .overflowing, false⟩] := by
      simp [yieldEnter, hover, hnil]
    refine ⟨h.lists, h.dated, h.clock, h.period, h.bounded, h.reloads, hpending, h.seen, fun hnil => (by cases hnil),
      hbegun, fun y hy hp => ?_, fun y hy _ => ?_⟩
    · rw [hone, mem_singleton] at hy
      subst hy
      cases hp
    · rw [hone, mem_singleton] at hy
      subst hy
      refine ⟨hone, by rw [hnext, hseen], fun i hi => hleft hover i ?_⟩
      rw [h.lists.members_eq]
      exact hi
end

section
variable (h : Keeps v s ls r) (hy : s.yields = y :: rest)
include h hy

/-- The list of the last lap is empty, and the next one takes its place. -/
theorem Keeps.switched (hphase : y.phase = .overflowing) (hempty : ls .timerList = []) :
    Keeps v { timerListSwitch s with yields := { y with phase := .processing, inCallback := false } :: rest }
      (MultiTimer.switched ls) (r + 1) := by
  have hmem : y ∈ s.yields := by rw [hy]; exact mem_cons_self
  obtain ⟨hone, hlap, -⟩ := h.overflowing y hmem hphase
  rw [hy] at hone
  obtain ⟨-, rfl⟩ := List.cons.inj hone
  refine ⟨h.lists.switch, h.dated.switch hempty, h.clock, h.period, h.bounded, h.reloads, ?_, h.seen,
    fun hnil => (by cases hnil), fun x hx => ?_, fun x hx _ => ?_, fun x hx hover => ?_⟩
  · rw [h.pending, hy]
    rfl
  · cases mem_singleton.mp hx
    exact h.begun y hmem
  · cases mem_singleton.mp hx
    exact hlap
  · cases mem_singleton.mp hx
    cases hover

theorem Keeps.left (hphase : y.phase = .processing) (hlap : s.clock / lap = r) :
    Keeps { v with pending := v.pending.tail } (yieldLeave s y rest).1 ls r := by
  have hrest (x : Yield) (hx : x ∈ rest) : x ∈ s.yields := by rw [hy]; exact mem_cons_of_mem y hx
  refine ⟨h.lists, h.dated, h.clock, h.period, h.bounded, h.reloads, ?_, Nat.le_refl _, fun _ => hlap,
    fun x hx => h.begun x (hrest x hx), fun x hx => h.processing x (hrest x hx), fun x hx hover => ?_⟩
  · rw [h.pending, hy]
    rfl
  · rw [h.below_processing hy hphase x (hrest x hx)] at hover
    cases hover

theorem Keeps.head_pending : v.pending.head? = some y.begun := by
  rw [h.pending, hy]
  rfl

/-- What a yield takes from the list was due when it began. -/
theorem Keeps.allows_expired (hhead : ls .timerList = i :: tail)
    (hdue : y.phase = .processing → (s.timers i).delay ≤ y.nowTime) (called : Bool) : v.Allows (.expired i called) := by
  have hmem : y ∈ s.yields := by rw [hy]; exact mem_cons_self
  have hi : i ∈ ls .timerList := by rw [hhead]; exact mem_cons_self
  have hsmall := h.dated.small .timerList i hi
  refine ⟨y.begun, _, h.head_pending hy, h.dated.mem .timerList i hi, ?_, by rw [h.clock]; exact h.begun y hmem⟩
  cases hphase : y.phase with
  | processing =>
    have hle := hdue hphase
    have hlap := h.processing y hmem hphase
    simp only [Yield.nowTime, u32, lap, Which.ahead] at *
    omega
  | overflowing =>
    have hlap := (h.overflowing y hmem hphase).2.1
    simp only [lap, Which.ahead] at *
    omega

/-- And what it leaves was not. -/
theorem Keeps.allows_returned (hphase : y.phase = .processing)
    (hnone : ∀ i tail, ls .timerList = i :: tail → y.nowTime < (s.timers i).delay) (value : Nat) :
    v.Allows (.returned value) := by
  have hmem : y ∈ s.yields := by rw [hy]; exact mem_cons_self
  have hlap := h.processing y hmem hphase
  refine ⟨y.begun, h.head_pending hy, fun i d hd => ?_⟩
  by_cases hmain : i ∈ ls .timerList
  · have hlate : y.nowTime < (s.timers i).delay := by
      obtain ⟨j, tail, hls⟩ := exists_cons_of_ne_nil (ne_nil_of_mem hmain)
      have hsorted := h.dated.sorted .timerList
      rw [hls] at hmain hsorted
      have hfirst := hnone j tail hls
      rcases mem_cons.mp hmain with rfl | hi
      · exact hfirst
      · exact Nat.lt_of_lt_of_le hfirst ((pairwise_cons.mp hsorted).1 i hi)
    have hd' := (h.dated.mem .timerList i hmain).symm.trans hd
    cases hd'
    simp only [Yield.nowTime, u32, lap, Which.ahead] at *
    omega
  · by_cases hnext : i ∈ ls .overflowTimerList
    · have hd' := (h.dated.mem .overflowTimerList i hnext).symm.trans hd
      cases hd'
      simp only [lap, Which.ahead] at *
      omega
    · have habsent := h.dated.absent i fun w => by
        cases w with
        | timerList => exact hmain
        | overflowTimerList => exact hnext
      rw [habsent] at hd
      cases hd

end

/-- One step: the service allows what it shows, and is kept. -/
theorem Keeps.step (h : Keeps v s ls r) (heff : Effect s ls e s' o ls') (hlists : Lists s'.links ls') (hreg : Regular s e)
    (hlap : InLap s e) : v.Allows o ∧ ∃ r', Keeps (v.after (e, o)) s' ls' r' := by
  cases heff with
  | tick ms => exact ⟨trivial, r, h.tick ms⟩
  | start i links hi =>
    have hlap : s.clock / lap = r := Eq.trans hlap h.round_eq
    refine ⟨trivial, r, ?_⟩
    show Keeps { v with due := Function.update v.due i (some (v.clock + v.period i)) } _ _ r
    rw [show v.clock + v.period i = s.clock + v.period i by rw [h.clock]]
    exact h.queued hlap hi hlists (h.all_processing hlap)
  | stop i links => exact ⟨trivial, r, h.unqueued hlists⟩
  | change i ms links links' hcreat =>
    have hlap : s.clock / lap = r := Eq.trans hlap h.round_eq
    have hmid := h.recreated hcreat hreg (h.all_processing hlap)
    have hout (w : Which) : i ∉ unqueue ls i w := fun hmem => ((mem_unqueue h.lists.nodup).mp hmem).1 rfl
    have hend := hmid.queued hlap (fun w hmem => absurd hmem (hout w)) hlists (h.all_processing hlap)
    simp only [update_self, update_idem] at hend
    refine ⟨trivial, r, ?_⟩
    show Keeps { v with
      period := Function.update v.period i ms, due := Function.update v.due i (some (v.clock + ms)) } _ _ r
    rw [show v.clock + ms = s.clock + ms by rw [h.clock]]
    exact hend
  | yield => exact ⟨trivial, r, h.entered hreg hlap⟩
  | switch y rest hy hphase hempty => exact ⟨trivial, r + 1, h.switched hy hphase hempty⟩
  | expire y rest i tail hy hhead hdue hauto =>
    refine ⟨h.allows_expired hy hhead hdue _, r, ?_⟩
    rw [Service.after_expire v i _ ((h.reloads i).trans hauto)]
    exact (h.popped hhead).called hy i
  | reload y rest i tail links hy hhead hdue hauto =>
    refine ⟨h.allows_expired hy hhead hdue _, r, ?_⟩
    have hmem : y ∈ s.yields := by rw [hy]; exact mem_cons_self
    have hphase : y.phase = .processing := by
      cases hover : y.phase with
      | processing => rfl
      | overflowing =>
        have := (h.overflowing y hmem hover).2.2 i (by rw [hhead]; exact mem_cons_self)
        rw [hauto] at this
        cases this
    have hqueued := (h.popped hhead).queued (h.processing y hmem hphase)
      (fun w hi => absurd hi (h.lists.pop_not_mem hhead w)) hlists (h.below_processing hy hphase)
    simp only [update_idem] at hqueued
    rw [Service.after_reload v i _ (h.head_pending hy) ((h.reloads i).trans hauto)]
    exact hqueued.called hy i
  | leave y rest hy hphase hnone =>
    have hthrough : s.through = true := by
      rw [State.through, hy]
      simp only [hphase, beq_self_eq_true, Bool.true_and]
      cases hhead : s.links.head .timerList with
      | none => rfl
      | some i =>
        obtain ⟨tail, htail⟩ := h.lists.head_some hhead
        exact decide_eq_true (hnone i tail htail)
    have hlap : s.clock / lap = r := (hlap hthrough).trans h.round_eq
    exact ⟨h.allows_returned hy hphase hnone _, r, h.left hy hphase hlap⟩

end Runs

/-! ### Progress -/

namespace Service
variable {n : Nat} {v : Service n} {e : Event n} {o : Output n}

/-- Yields are nested in time, and periods are positive. -/
structure Sane (v : Service n) : Prop where
  past : ∀ t ∈ v.pending, t ≤ v.clock
  nested : v.pending.Pairwise (· ≥ ·)
  positive : ∀ i, 0 < v.period i

def Positive : Event n → Prop
  | .change _ ms => 0 < ms
  | _ => True

theorem Sane.after (h : v.Sane) (he : Positive e) : (v.after (e, o)).Sane := by
  cases e with
  | tick ms => exact ⟨fun t ht => Nat.le_add_right_of_le (h.past t ht), h.nested, h.positive⟩
  | start i => exact ⟨h.past, h.nested, h.positive⟩
  | stop i => exact ⟨h.past, h.nested, h.positive⟩
  | change i ms =>
    refine ⟨h.past, h.nested, fun j => ?_⟩
    show 0 < Function.update v.period i ms j
    by_cases hj : j = i
    · subst hj
      rw [update_self]
      exact he
    · rw [update_of_ne hj]
      exact h.positive j
  | yield =>
    exact ⟨forall_mem_cons.mpr ⟨Nat.le_refl _, h.past⟩, pairwise_cons.mpr ⟨h.past, h.nested⟩, h.positive⟩
  | resume =>
    cases o with
    | quiet => exact h
    | ok => exact h
    | expired i called => exact ⟨h.past, h.nested, h.positive⟩
    | returned value =>
      exact ⟨fun t ht => h.past t (mem_of_mem_tail ht), h.nested.sublist (tail_sublist _), h.positive⟩

variable {began : Nat}

/-- A deadline that is set later than `began` adds nothing to what was due then. -/
theorem overdue_update {i : Fin n} {new : Option Nat} (hnew : ∀ d, new = some d → began < d) {j : Fin n} :
    j ∈ overdue { v with due := Function.update v.due i new } began ↔ j ≠ i ∧ j ∈ v.overdue began := by
  show (∃ d, Function.update v.due i new j = some d ∧ d ≤ began) ↔ _
  by_cases hj : j = i
  · subst hj
    rw [update_self]
    refine ⟨fun ⟨d, hd, hle⟩ => ?_, fun hne => absurd rfl hne.1⟩
    have := hnew d hd
    omega
  · rw [update_of_ne hj]
    exact ⟨fun hd => ⟨hj, hd⟩, fun hd => hd.2⟩

/-- The new deadline of a timer that has expired, if it has one, is behind every yield. -/
theorem Sane.reload_later (h : v.Sane) {d : Nat} {i : Fin n} (hb : began ∈ v.pending)
    (hd : (if v.reloads i then v.pending.head?.map (· + v.period i) else none) = some d) : began < d := by
  have hpositive := h.positive i
  split at hd
  · obtain ⟨t, ht, rfl⟩ := Option.map_eq_some_iff.mp hd
    obtain ⟨rest, hrest⟩ : ∃ rest, v.pending = t :: rest := by
      cases hp : v.pending with
      | nil => rw [hp] at ht; cases ht
      | cons x rest =>
        rw [hp] at ht
        cases ht
        exact ⟨rest, rfl⟩
    have hnested := h.nested
    rw [hrest] at hnested hb
    rcases mem_cons.mp hb with rfl | hb
    · omega
    · have := (pairwise_cons.mp hnested).1 began hb
      omega
  · cases hd

theorem Sane.overdue_after (h : v.Sane) (he : Positive e) (hb : began ∈ v.pending) :
    (v.after (e, o)).overdue began ⊆ v.overdue began := by
  have hpast := h.past began hb
  intro j hj
  cases e with
  | tick ms => exact hj
  | yield => exact hj
  | start i =>
    refine ((overdue_update fun d hd => ?_).mp hj).2
    have := h.positive i
    cases hd
    omega
  | stop i => exact ((overdue_update fun _ hd => by cases hd).mp hj).2
  | change i ms =>
    refine ((overdue_update fun d hd => ?_).mp hj).2
    have he : 0 < ms := he
    cases hd
    omega
  | resume =>
    cases o with
    | quiet => exact hj
    | ok => exact hj
    | expired i called => exact ((overdue_update fun _ hd => h.reload_later hb hd).mp hj).2
    | returned value => exact hj

theorem Sane.expired_not_overdue (h : v.Sane) (hb : began ∈ v.pending) (i : Fin n) (called : Bool) :
    i ∉ (v.after (.resume, .expired i called)).overdue began :=
  fun hi => ((overdue_update fun _ hd => h.reload_later hb hd).mp hi).1 rfl

end Service

/-! ### The run -/

section Run
variable {n : Nat} {v : Service n} {e : Event n} {o : Output n} {past : List (Event n × Output n)}

theorem replay_snoc (v : Service n) (past : List (Event n × Output n)) (x : Event n × Output n) :
    v.replay (past ++ [x]) = (v.replay past).after x := by
  rw [Service.replay, foldl_append]
  rfl

theorem timely_snoc (h : Timely v past) (ho : (v.replay past).Allows o) : Timely v (past ++ [(e, o)]) := by
  intro pre e' o' post hsplit
  obtain ⟨rfl, hx, rfl⟩ | ⟨rest, rfl, hrest⟩ := split_snoc hsplit
  · cases hx
    exact ho
  · exact h pre e' o' rest hrest

theorem dwindles_snoc (h : Dwindles v past) (hsane : (v.replay past).Sane) (he : Service.Positive e)
    (hresume : ∀ i called, o = .expired i called → e = .resume) : Dwindles v (past ++ [(e, o)]) := by
  intro pre e' o' post hsplit began hb
  obtain ⟨rfl, hx, rfl⟩ | ⟨rest, rfl, hrest⟩ := split_snoc hsplit
  · cases hx
    rw [replay_snoc]
    refine ⟨hsane.overdue_after he hb, fun i called hexpired _ => ?_⟩
    rw [hresume i called hexpired, hexpired]
    exact hsane.expired_not_overdue hb i called
  · exact h pre e' o' rest hrest began hb

/-- What a run keeps. -/
structure Punctual (v : Service n) (past : List (Event n × Output n)) (s : State n) : Prop where
  keeps : ∃ ls r, Keeps (v.replay past) s ls r
  sane : (v.replay past).Sane
  timely : Timely v past
  dwindles : Dwindles v past

theorem Punctual.step {s : State n} (h : Punctual v past s) (he : Enabled s e) (hreg : Regular s e) (htame : Tame s e) :
    ∃ s' o, step s e = some (s', o) ∧ Punctual v (past ++ [(e, o)]) s' := by
  obtain ⟨⟨ls, r, hkeeps⟩, hsane, htimely, hdwindles⟩ := h
  obtain ⟨s', o, ls', hstep, hlists, heff⟩ := step_effect hkeeps.lists he htame.1
  obtain ⟨hallows, r', hkeeps'⟩ := hkeeps.step heff hlists hreg htame.2
  have hpositive : Service.Positive e := by
    cases e with
    | change i ms => exact hreg.1
    | _ => trivial
  have hresume (i : Fin n) (called : Bool) (ho : o = .expired i called) : e = .resume := by
    subst ho
    cases heff <;> rfl
  refine ⟨s', o, hstep, ?_, ?_, timely_snoc htimely hallows, dwindles_snoc hdwindles hsane hpositive hresume⟩
  · rw [replay_snoc]
    exact ⟨ls', r', hkeeps'⟩
  · rw [replay_snoc]
    exact hsane.after hpositive

end Run

/-- The service of timers that have been created. -/
def Service.boot {n : Nat} (timers : Fin n → Timer) (clock : Nat) : Service n where
  clock := clock
  period i := (timers i).period
  reloads i := (timers i).autoReload
  due _ := none
  pending := []

theorem boot_keeps {n : Nat} (timers : Fin n → Timer) (clock : Nat)
    (hperiods : ∀ i, 0 < (timers i).period ∧ (timers i).period < 2 ^ 31) :
    Keeps (Service.boot timers clock) (boot timers clock) (fun _ => []) 0 where
  lists := boot_lists timers clock
  dated := ⟨fun _ _ hi => (by cases hi), fun _ _ => rfl, fun _ _ hi => (by cases hi), fun _ => List.Pairwise.nil⟩
  clock := rfl
  period _ := rfl
  bounded := hperiods
  reloads _ := rfl
  pending := rfl
  seen := Nat.zero_le _
  idle _ := Nat.zero_div lap
  begun _ hy := by cases hy
  processing _ hy := by cases hy
  overflowing _ hy := by cases hy

/-- **Timers keep time.** Every run of calls that can be made, with periods below 2^31 and
yields no further apart, on steps that are `Tame`: each of its steps is taken, every timer
that expires does so in a yield that began a period or more after it was last started or
reloaded, no yield leaves a timer behind that was due when it began, and none of them goes
on for ever. -/
theorem timers_keep_time {n : Nat} (timers : Fin n → Timer) (clock : Nat) (events : List (Event n))
    (hperiods : ∀ i, 0 < (timers i).period ∧ (timers i).period < 2 ^ 31)
    (hc : (machine n).Meets (fun s e => Enabled s e ∧ Regular s e ∧ Tame s e) (boot timers clock) events) :
    ∃ t trace, (machine n).run (boot timers clock) events = some (t, trace) ∧
      Timely (Service.boot timers clock) trace ∧ Dwindles (Service.boot timers clock) trace := by
  have hboot : Punctual (Service.boot timers clock) [] (boot timers clock) := by
    refine ⟨⟨fun _ => [], 0, boot_keeps timers clock hperiods⟩, ?_, fun pre e o post hsplit => ?_,
      fun pre e o post hsplit => ?_⟩
    · exact ⟨fun _ ht => (by cases ht), List.Pairwise.nil, fun i => (hperiods i).1⟩
    · simp at hsplit
    · simp at hsplit
  obtain ⟨t, trace, hr, hend⟩ := (machine n).run_total _ (Punctual (Service.boot timers clock))
    (fun _ _ _ h hcond => h.step hcond.1 hcond.2.1 hcond.2.2) hboot hc
  exact ⟨t, trace, hr, hend.timely, hend.dwindles⟩

def hundred (autoReload : Bool) : Fin 1 → Timer := fun _ => { period := 100, callback := true, autoReload := autoReload }

def acrossALap : List (Event 1) :=
  [.yield, .resume, .start 0, .tick 100, .yield, .resume, .resume, .tick 100, .yield, .resume, .resume, .tick 120, .yield,
    .resume, .resume, .resume]

theorem timers_keep_time_across_a_lap :
    ∃ t trace, (machine 1).run (boot (hundred true) (lap - 250)) acrossALap = some (t, trace) ∧
      Timely (Service.boot (hundred true) (lap - 250)) trace ∧ Dwindles (Service.boot (hundred true) (lap - 250)) trace :=
  timers_keep_time (hundred true) (lap - 250) acrossALap (by decide) (by decide +kernel)

def startedBehindWrap : List (Event 1 × Output 1) :=
  [(.yield, .quiet), (.resume, .returned 0), (.tick 25, .quiet), (.start 0, .ok), (.tick 1, .quiet), (.yield, .quiet)]

/-- It expires at once: 1 ms after its start, and not 100. -/
theorem timer_expires_early :
    ∃ (timers : Fin 1 → Timer) (clock : Nat) (events : List (Event 1)) (t : State 1) (trace : List (Event 1 × Output 1)),
      (∀ i, 0 < (timers i).period ∧ (timers i).period < 2 ^ 31) ∧
      (machine 1).Meets (fun s e => Enabled s e ∧ Regular s e) (boot timers clock) events ∧
      (machine 1).run (boot timers clock) events = some (t, trace) ∧ ¬ Timely (Service.boot timers clock) trace := by
  have hrun : ((machine 1).run (boot (hundred false) (lap - 20)) (startedBehindWrap.map Prod.fst ++ [.resume])).map Prod.snd =
      some (startedBehindWrap ++ [(.resume, .expired 0 true)]) := by decide +kernel
  obtain ⟨⟨t, trace⟩, hr, htrace⟩ := Option.map_eq_some_iff.mp hrun
  refine ⟨hundred false, lap - 20, _, t, trace, by decide, by decide +kernel, hr, fun h => ?_⟩
  obtain ⟨began, d, hbegan, hdue, hle, -⟩ := h startedBehindWrap .resume (.expired 0 true) [] htrace
  have hbegan : some (lap + 6) = some began := hbegan
  have hdue : some (lap + 105) = some d := hdue
  cases hbegan
  cases hdue
  omega

end Qumios.MultiTimer
