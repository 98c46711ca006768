import Qumios.ThreadPool.Pool

/-! Each task that is accepted is called once.

Every look at the semaphore is worth a task: the signals that are on their way, the count
of the semaphore and the workers that have passed it are as many as the tasks in the
queue. That holds as long as every worker has found the queue empty before the first task
comes, because only then does it wait from there on. `threadpool_destroy` adds one signal
for every worker, and with them the workers leave. -/
namespace Qumios.ThreadPool
open Run RingBuffer List Option

section Sums
variable {n : Nat} {β M : Type} [AddCommMonoid M]

theorem sum_update (g : β → M) (w : Fin n → β) (i : Fin n) (x : β) :
    ∑ j, g (Function.update w i x j) + g (w i) = ∑ j, g (w j) + g x := by
  have hrest : ∑ j ∈ Finset.univ.erase i, g (Function.update w i x j) = ∑ j ∈ Finset.univ.erase i, g (w j) :=
    Finset.sum_congr rfl fun j hj => by rw [Function.update_of_ne (Finset.ne_of_mem_erase hj)]
  rw [← Finset.add_sum_erase Finset.univ (fun j => g (Function.update w i x j)) (Finset.mem_univ i),
    ← Finset.add_sum_erase Finset.univ (fun j => g (w j)) (Finset.mem_univ i), hrest, Function.update_self]
  rw [add_assoc, add_comm (∑ j ∈ _, g (w j)), ← add_assoc, add_comm (g x), add_assoc, add_assoc, add_comm (g x)]

end Sums

section Invariant
variable {n : Nat} {α : Type}

def Point.token : Point α → Nat
  | .grab => 1
  | .look | .wait | .call _ | .exited => 0

def Point.live : Point α → Nat
  | .exited => 0
  | .look | .wait | .grab | .call _ => 1

def Point.hands : Point α → Multiset α
  | .call (some task) => {task}
  | .call none | .look | .wait | .grab | .exited => 0

def State.tokens (s : State n α) : Nat := ∑ i, (s.workers i).point.token

def State.alive (s : State n α) : Nat := ∑ i, (s.workers i).point.live

def State.hands (s : State n α) : Multiset α := ∑ i, (s.workers i).point.hands

def State.move (s : State n α) (i : Fin n) (pool : Pool α) (w : Worker α) : State n α :=
  { s with pool := pool, workers := Function.update s.workers i w }

def Destroyer.left : Destroyer → Nat
  | .waking left => left
  | _ => 0

def Settled (s : State n α) : Event n α → Prop
  | .add _ => s.pool.shutdown = .no ∧ ∀ i, (s.workers i).wait = true
  | .destroy graceful => graceful = true
  | _ => True

instance (s : State n α) : DecidablePred (Settled s)
  | .add _ => inferInstanceAs (Decidable (s.pool.shutdown = .no ∧ ∀ i, (s.workers i).wait = true))
  | .destroy graceful => inferInstanceAs (Decidable (graceful = true))
  | .signal => isTrue trivial
  | .worker _ => isTrue trivial
  | .wake => isTrue trivial
  | .join => isTrue trivial

/-- The semaphore against a queue of `m` tasks. -/
inductive Phase (s : State n α) (m : Nat) : Prop
  | running (shutdown : s.pool.shutdown = .no) (idle : s.destroyer = .none)
      (tokens : s.pool.notify + s.signals + s.tokens = m)
      (settled : m = 0 ∨ ∀ i, (s.workers i).wait = true)
      (fresh : ∀ i, (s.workers i).wait = false → (s.workers i).point = .look)
      (alive : s.alive = n)
  | closing (shutdown : s.pool.shutdown = .graceful) (called : s.destroyer ≠ .none)
      (tokens : m + s.alive ≤ s.pool.notify + s.signals + s.destroyer.left + s.tokens)
      (gone : s.alive < n → m = 0)

/-- The ring of tasks, and where every task that was accepted is. -/
structure Inv (queueSize : Nat) (trace : Trace n α) (s : State n α) (queued : List α) : Prop where
  size : s.pool.queue.length = queueSize
  ring : Holds s.pool.queue s.pool.head (queued.map some)
  tail : s.pool.tail = (s.pool.head + queued.length) % queueSize
  count : s.pool.count = queued.length
  tasks : (accepted trace : Multiset α) = called trace + s.hands + queued
  started : s.pool.started = s.alive
  phase : Phase s queued.length

/-! ### The steps of a worker -/

inductive Move (pool : Pool α) : Worker α → Pool α → Worker α → Output α → Prop
  /-- It has found the queue empty, now or before. -/
  | waits (wait : Bool) (idle : wait = true ∨ (pool.count = 0 ∧ pool.shutdown = .no)) :
      Move pool ⟨wait, .look⟩ pool ⟨true, .wait⟩ .quiet
  | skips (busy : ¬ (pool.count = 0 ∧ pool.shutdown = .no)) :
      Move pool ⟨false, .look⟩ pool ⟨false, .grab⟩ .quiet
  | passes (wait : Bool) (signalled : 0 < pool.notify) :
      Move pool ⟨wait, .wait⟩ { pool with notify := pool.notify - 1 } ⟨wait, .grab⟩ .quiet
  | exits (wait : Bool) (ended : pool.shutdown = .immediate ∨ (pool.shutdown = .graceful ∧ pool.count = 0)) :
      Move pool ⟨wait, .grab⟩ { pool with started := pool.started - 1 } ⟨wait, .exited⟩ .quiet
  | takes (wait : Bool) (going : ¬ (pool.shutdown = .immediate ∨ (pool.shutdown = .graceful ∧ pool.count = 0))) :
      Move pool ⟨wait, .grab⟩ { pool with head := (pool.head + 1) % pool.queue.length, count := pool.count - 1 }
        ⟨wait, .call (pool.queue.getD pool.head none)⟩ (.took (pool.queue.getD pool.head none))
  | calls (wait : Bool) (task : Option α) : Move pool ⟨wait, .call task⟩ pool ⟨wait, .look⟩ (.called task)

variable {pool pool' : Pool α} {w : Fin n → Worker α} {w' : Worker α} {o : Output α} {s' : State n α} {i : Fin n}
  {e : Event n α}

theorem workerStep_move {w : Worker α} (h : workerStep pool w = some (pool', w', o)) : Move pool w pool' w' o := by
  obtain ⟨wait, point⟩ := w
  cases point with
  | look =>
    rw [workerStep] at h
    by_cases hidle : pool.count = 0 ∧ pool.shutdown = .no
    · simp only [if_pos hidle] at h
      cases h
      exact .waits wait (.inr hidle)
    · simp only [if_neg hidle] at h
      cases h
      cases wait with
      | true => exact .waits true (.inl rfl)
      | false => exact .skips hidle
  | wait =>
    obtain ⟨hsignalled, h⟩ := ite_none_right_eq_some.mp h
    cases h
    exact .passes wait hsignalled
  | grab =>
    rw [workerStep] at h
    dsimp only at h
    split at h
    · rename_i hover
      cases h
      exact .exits wait hover
    · rename_i hgoing
      cases h
      exact .takes wait hgoing
  | call task =>
    cases h
    exact .calls wait task
  | exited => cases h

theorem accepted_snoc (trace : Trace n α) (e : Event n α) (o : Output α) :
    accepted (trace ++ [(e, o)]) = accepted trace ++ accepted [(e, o)] := filterMap_append

theorem called_snoc (trace : Trace n α) (e : Event n α) (o : Output α) :
    called (trace ++ [(e, o)]) = called trace ++ called [(e, o)] := filterMap_append

theorem called_quiet (trace : Trace n α) (e : Event n α) : called (trace ++ [(e, .quiet)]) = called trace := by
  rw [called_snoc]
  exact append_nil _

variable {queueSize : Nat} {trace : Trace n α} {s : State n α} {queued : List α}

/-- The parts of a state that the ring and the tasks are read off. -/
theorem Inv.frame {trace' : Trace n α} (h : Inv queueSize trace s queued) (hqueue : s'.pool.queue = s.pool.queue)
    (hhead : s'.pool.head = s.pool.head) (htail : s'.pool.tail = s.pool.tail)
    (hcount : s'.pool.count = s.pool.count) (haccepted : accepted trace' = accepted trace)
    (hcalled : (called trace' : Multiset α) + s'.hands = called trace + s.hands)
    (hstarted : s'.pool.started = s'.alive) (hphase : Phase s' queued.length) :
    Inv queueSize trace' s' queued where
  size := by rw [hqueue]; exact h.size
  ring := by rw [hqueue, hhead]; exact h.ring
  tail := by rw [htail, hhead]; exact h.tail
  count := hcount.trans h.count
  tasks := by rw [haccepted, h.tasks, hcalled]
  started := hstarted
  phase := hphase

/-- A quiet step that leaves the ring and the hands as they are. -/
theorem Inv.quiet {e : Event n α} (h : Inv queueSize trace s queued) (hqueue : s'.pool.queue = s.pool.queue)
    (hhead : s'.pool.head = s.pool.head) (htail : s'.pool.tail = s.pool.tail)
    (hcount : s'.pool.count = s.pool.count) (hhands : s'.hands = s.hands) (hstarted : s'.pool.started = s'.alive)
    (hphase : Phase s' queued.length) : ∃ queued', Inv queueSize (trace ++ [(e, .quiet)]) s' queued' := by
  refine ⟨queued, h.frame hqueue hhead htail hcount ?_ ?_ hstarted hphase⟩
  · rw [accepted_snoc]
    cases e <;> exact append_nil _
  · rw [called_quiet, hhands]

theorem wait_update (hw' : w'.wait = true) (h : ∀ j, (w j).wait = true) :
    ∀ j, (Function.update w i w' j).wait = true := by
  exact (Function.forall_update_iff w fun _ x => x.wait = true).mpr ⟨hw', fun j _ => h j⟩

theorem fresh_update (hw' : w'.wait = true) (h : ∀ j, (w j).wait = false → (w j).point = .look) :
    ∀ j, (Function.update w i w' j).wait = false → (Function.update w i w' j).point = .look := by
  refine (Function.forall_update_iff w fun _ x => x.wait = false → x.point = .look).mpr ⟨?_, fun j _ => h j⟩
  rw [hw']
  intro hfalse
  cases hfalse

/-- A worker with a token that does not exit finds a task: the tokens are as many as the tasks, or
the pool shuts down and the queue is not empty. -/
theorem Inv.length_pos (h : Inv queueSize trace s queued) (hi : (s.workers i).point.token = 1)
    (hgoing : ¬ (s.pool.shutdown = .immediate ∨ (s.pool.shutdown = .graceful ∧ s.pool.count = 0))) :
    0 < queued.length := by
  have hle : (s.workers i).point.token ≤ s.tokens :=
    Finset.single_le_sum (f := fun j => (s.workers j).point.token) (fun _ _ => Nat.zero_le _) (Finset.mem_univ i)
  have hcount := h.count
  cases h.phase with
  | running shutdown idle tokens settled fresh alive => omega
  | closing shutdown called tokens gone =>
    have hne : s.pool.count ≠ 0 := fun hzero => hgoing (.inr ⟨shutdown, hzero⟩)
    omega

theorem Phase.waited {m : Nat} (h : Phase s m) (hlook : (s.workers i).point ≠ .look) (hno : s.pool.shutdown = .no) :
    (s.workers i).wait = true := by
  cases h with
  | running shutdown idle tokens settled fresh alive =>
    cases hwait : (s.workers i).wait with
    | true => rfl
    | false => exact absurd (fresh i hwait) hlook
  | closing shutdown => cases hno.symm.trans shutdown

/-- A step of a worker that takes as many tokens as tasks keeps the phase. -/
theorem Phase.move {m m' : Nat} {w : Worker α} (h : Phase s m) (hshutdown : pool.shutdown = s.pool.shutdown)
    (hwait : s.pool.shutdown = .no → w.wait = true) (halive : (s.move i pool w).alive = s.alive) (hm : m' ≤ m)
    (htokens : pool.notify + (s.move i pool w).tokens + m = s.pool.notify + s.tokens + m') :
    Phase (s.move i pool w) m' := by
  cases h with
  | running shutdown idle tokens settled fresh alive =>
    have hw := hwait shutdown
    refine .running (hshutdown.trans shutdown) idle ?_ (settled.imp (by omega) (wait_update hw)) (fresh_update hw fresh)
      (halive.trans alive)
    show pool.notify + s.signals + _ = _
    omega
  | closing shutdown called tokens gone =>
    refine .closing (hshutdown.trans shutdown) called ?_ fun hgone => Nat.le_zero.mp (gone (halive ▸ hgone) ▸ hm)
    show _ ≤ pool.notify + s.signals + s.destroyer.left + _
    omega

theorem move_sums (s : State n α) (i : Fin n) (pool : Pool α) (w : Worker α) :
    (s.move i pool w).tokens + (s.workers i).point.token = s.tokens + w.point.token ∧
    (s.move i pool w).alive + (s.workers i).point.live = s.alive + w.point.live ∧
    (s.move i pool w).hands + (s.workers i).point.hands = s.hands + w.point.hands :=
  ⟨sum_update (fun w : Worker α => w.point.token) s.workers i w,
    sum_update (fun w : Worker α => w.point.live) s.workers i w,
    sum_update (fun w : Worker α => w.point.hands) s.workers i w⟩

/-- **A step of a worker** keeps the tokens as many as the tasks. -/
theorem Inv.worker (h : Inv queueSize trace s queued) (hmove : Move s.pool (s.workers i) pool' w' o) :
    ∃ queued', Inv queueSize (trace ++ [(.worker i, o)]) (s.move i pool' w') queued' := by
  obtain ⟨htoken, hlive, hhands⟩ := move_sums s i pool' w'
  have hstarted := h.started
  have hcount := h.count
  have haccepted : accepted (trace ++ [((.worker i : Event n α), o)]) = accepted trace := by
    rw [accepted_snoc]
    exact append_nil _
  have hwaited := h.phase.waited (i := i)
  have hpos := h.length_pos (i := i)
  have hsettled (settled : ∀ j, (s.workers j).wait = true) : (s.workers i).wait = true := settled i
  generalize s.workers i = w at hmove htoken hlive hhands hwaited hpos hsettled
  cases hmove with
  | waits wait idle =>
    simp only [Point.token, Point.live, Point.hands, add_zero, Nat.add_right_cancel_iff] at htoken hlive hhands
    exact h.quiet rfl rfl rfl rfl hhands (hlive ▸ hstarted)
      (h.phase.move rfl (fun _ => rfl) hlive (Nat.le_refl _) (by omega))
  | skips busy =>
    simp only [Point.token, Point.live, Point.hands, add_zero, Nat.add_right_cancel_iff] at htoken hlive hhands
    refine h.quiet rfl rfl rfl rfl hhands (hlive ▸ hstarted) ?_
    cases h.phase with
    | running shutdown idle tokens settled fresh alive =>
      -- The queue is not empty, so all workers wait, this one among them.
      have hbusy : s.pool.count ≠ 0 := fun hzero => busy ⟨hzero, shutdown⟩
      cases hsettled (settled.resolve_left (by omega))
    | closing shutdown called tokens gone =>
      refine .closing shutdown called ?_ (hlive ▸ gone)
      show _ ≤ s.pool.notify + s.signals + s.destroyer.left + _
      omega
  | passes wait signalled =>
    simp only [Point.token, Point.live, Point.hands, add_zero, Nat.add_right_cancel_iff] at htoken hlive hhands
    refine h.quiet rfl rfl rfl rfl hhands (hlive ▸ hstarted) ?_
    refine h.phase.move rfl (hwaited fun hl => by cases hl) hlive (Nat.le_refl _) ?_
    dsimp only
    omega
  | exits wait ended =>
    simp only [Point.token, Point.live, Point.hands, add_zero] at htoken hlive hhands
    refine h.quiet rfl rfl rfl rfl hhands ?_ ?_
    · show s.pool.started - 1 = _
      omega
    · cases h.phase with
      | running shutdown idle tokens settled fresh alive => simp [shutdown] at ended
      | closing shutdown called tokens gone =>
        have hzero : s.pool.count = 0 := (ended.resolve_left (by simp [shutdown])).2
        refine .closing shutdown called ?_ (fun _ => by omega)
        show _ ≤ s.pool.notify + s.signals + s.destroyer.left + _
        omega
  | takes wait going =>
    simp only [Point.token, Point.live, Nat.add_right_cancel_iff, add_zero] at htoken hlive
    have hlen := hpos rfl going
    obtain ⟨x, rest, rfl⟩ := exists_cons_of_length_pos hlen
    have hcell : s.pool.queue.getD s.pool.head none = some x := by
      rw [getD_eq_getElem?_getD, Holds.front h.ring, getD_some]
    rw [hcell] at htoken hlive hhands haccepted ⊢
    simp only [Point.hands, add_zero] at hhands
    rw [length_cons] at hcount
    refine ⟨rest, h.size, Holds.tail h.ring, ?_, ?_, ?_, ?_, ?_⟩
    · show s.pool.tail = ((s.pool.head + 1) % s.pool.queue.length + rest.length) % queueSize
      rw [h.tail, h.size, Nat.mod_add_mod, length_cons, Nat.add_assoc, Nat.add_comm 1]
    · show s.pool.count - 1 = _
      omega
    · rw [haccepted, h.tasks, hhands, called_snoc, ← Multiset.cons_coe, ← Multiset.singleton_add, add_assoc, add_assoc,
        add_assoc]
      exact congrArg (· + _) (congrArg _ (append_nil _).symm)
    · rw [hlive]
      exact hstarted
    · refine h.phase.move rfl (hwaited fun hl => by cases hl) hlive (Nat.le_succ _) ?_
      dsimp only [length_cons]
      omega
  | calls wait task =>
    simp only [Point.token, Point.live, Nat.add_right_cancel_iff, add_zero] at htoken hlive
    refine ⟨queued, h.frame rfl rfl rfl rfl haccepted ?_ ?_ ?_⟩
    · have hcalled : (called (trace ++ [((.worker i : Event n α), .called task)]) : Multiset α) =
          called trace + (Point.call task).hands := by
        rw [called_snoc, ← Multiset.coe_add]
        cases task <;> rfl
      rw [hcalled, add_assoc, add_comm (Point.hands _), hhands]
      exact congrArg _ (add_zero _)
    · rw [hlive]
      exact hstarted
    · exact h.phase.move rfl (hwaited fun hl => by cases hl) hlive (Nat.le_refl _) (by omega)

/-! ### The other steps -/

/-- A task is added while the pool is running and the workers are settled. -/
theorem Inv.add (h : Inv queueSize trace s queued) {task : α} (hc : Settled s (.add task))
    (hstep : step s (.add task) = some (s', o)) :
    ∃ queued', Inv queueSize (trace ++ [(.add task, o)]) s' queued' := by
  obtain ⟨hno, hwait⟩ := hc
  rw [step, Pool.add] at hstep
  have hcount := h.count
  by_cases hfull : s.pool.count = s.pool.queue.length
  · rw [if_pos hfull] at hstep
    cases hstep
    refine ⟨queued, h.frame rfl rfl rfl rfl ?_ ?_ h.started h.phase⟩
    · rw [accepted_snoc]
      exact append_nil _
    · rw [called_snoc]
      exact congrArg (· + _) (congrArg _ (append_nil _))
  · rw [if_neg hfull, if_neg (not_not.mpr hno)] at hstep
    cases hstep
    have hfits : (queued.map some).length ≤ s.pool.queue.length := h.ring.fits
    rw [length_map] at hfits
    have hroom : (queued.map some).length < s.pool.queue.length := by
      rw [length_map]
      omega
    have hring := h.ring.snoc hroom (some task)
    rw [length_map, h.size, ← h.tail] at hring
    refine ⟨queued ++ [task], ?_, ?_, ?_, ?_, ?_, h.started, ?_⟩
    · rw [length_set]
      exact h.size
    · rw [map_append]
      exact hring
    · rw [h.tail, h.size, Nat.mod_add_mod, length_append, length_singleton, Nat.add_assoc]
    · rw [hcount, length_append]
      rfl
    · have haccepted : (accepted (trace ++ [((.add task : Event n α), .ret 0)]) : Multiset α) =
          accepted trace + {task} := by
        rw [accepted_snoc]
        exact (Multiset.coe_add ..).symm
      have hcalled : called (trace ++ [((.add task : Event n α), .ret 0)]) = called trace := by
        rw [called_snoc]
        exact append_nil _
      rw [haccepted, hcalled, h.tasks, add_assoc, ← Multiset.coe_add]
      rfl
    · cases h.phase with
      | running shutdown idle tokens settled fresh alive =>
        refine .running shutdown idle ?_ (.inr hwait) fresh alive
        show s.pool.notify + (s.signals + 1) + s.tokens = _
        rw [length_append, length_singleton]
        omega
      | closing shutdown called tokens gone =>
        rw [hno] at shutdown
        cases shutdown

/-- **Every settled step** keeps the tokens as many as the tasks. -/
theorem inv_step (h : Inv queueSize trace s queued) (hc : Settled s e) (hstep : step s e = some (s', o)) :
    ∃ queued', Inv queueSize (trace ++ [(e, o)]) s' queued' := by
  cases e with
  | add task => exact h.add hc hstep
  | worker i =>
    obtain ⟨r, hr, heq⟩ := map_eq_some_iff.mp hstep
    cases heq
    exact h.worker (workerStep_move hr)
  | signal =>
    obtain ⟨hpos, hstep⟩ := ite_none_right_eq_some.mp hstep
    cases hstep
    refine h.quiet rfl rfl rfl rfl rfl h.started ?_
    cases h.phase with
    | running shutdown idle tokens settled fresh alive =>
      refine .running shutdown idle ?_ settled fresh alive
      show s.pool.notify + 1 + (s.signals - 1) + s.tokens = _
      omega
    | closing shutdown called tokens gone =>
      refine .closing shutdown called ?_ gone
      show _ ≤ s.pool.notify + 1 + (s.signals - 1) + s.destroyer.left + s.tokens
      exact Nat.le_trans tokens (by omega)
  | destroy graceful =>
    obtain rfl : graceful = true := hc
    obtain ⟨hnone, hstep⟩ := ite_none_right_eq_some.mp hstep
    cases hstep
    refine h.quiet rfl rfl rfl rfl rfl h.started ?_
    cases h.phase with
    | running shutdown idle tokens settled fresh alive =>
      refine .closing rfl (by simp) ?_ (fun hgone => absurd alive (Nat.ne_of_lt hgone))
      show _ + s.alive ≤ s.pool.notify + s.signals + n + s.tokens
      omega
    | closing shutdown called tokens gone => exact absurd hnone called
  | wake =>
    rw [step] at hstep
    split at hstep
    · rename_i left hwaking
      cases hstep
      refine h.quiet rfl rfl rfl rfl rfl h.started ?_
      cases h.phase with
      | running shutdown idle tokens settled fresh alive =>
        rw [hwaking] at idle
        cases idle
      | closing shutdown called tokens gone =>
        refine .closing shutdown (by simp) ?_ gone
        rw [hwaking] at tokens
        show _ ≤ s.pool.notify + 1 + s.signals + left + s.tokens
        exact Nat.le_trans tokens (by simp only [Destroyer.left]; omega)
    · cases hstep
  | join =>
    rw [step] at hstep
    split at hstep
    · rename_i hwaking
      obtain ⟨-, hstep⟩ := ite_none_right_eq_some.mp hstep
      cases hstep
      refine h.quiet rfl rfl rfl rfl rfl h.started ?_
      cases h.phase with
      | running shutdown idle tokens settled fresh alive =>
        rw [hwaking] at idle
        cases idle
      | closing shutdown called tokens gone =>
        refine .closing shutdown (by simp) ?_ gone
        rw [hwaking] at tokens
        exact tokens
    · cases hstep

/-! ### The pool comes to rest -/

def Point.work : Point α → Nat
  | .call _ => 4
  | .look => 3
  | .grab => 2
  | .wait | .exited => 0

def Destroyer.work : Destroyer → Nat
  | .waking left => 6 * left + 1
  | .none | .done => 0

def State.work (s : State n α) : Nat :=
  5 * s.pool.notify + 6 * s.signals + 5 * s.pool.count.toNat + s.destroyer.work + ∑ i, (s.workers i).point.work

/-- Every step the pool takes by itself brings it nearer to rest. -/
theorem work_lt (h : Inv queueSize trace s queued) (hint : e.internal = true) (hstep : step s e = some (s', o)) :
    s'.work < s.work := by
  have hcount := h.count
  cases e with
  | add task => cases hint
  | destroy graceful => cases hint
  | signal =>
    obtain ⟨hpos, hstep⟩ := ite_none_right_eq_some.mp hstep
    cases hstep
    simp only [State.work]
    omega
  | wake =>
    rw [step] at hstep
    split at hstep
    · rename_i left hwaking
      cases hstep
      simp only [State.work, hwaking, Destroyer.work]
      omega
    · cases hstep
  | join =>
    rw [step] at hstep
    split at hstep
    · rename_i hwaking
      obtain ⟨-, hstep⟩ := ite_none_right_eq_some.mp hstep
      cases hstep
      simp only [State.work, hwaking, Destroyer.work]
      omega
    · cases hstep
  | worker i =>
    obtain ⟨⟨pool', w', o'⟩, hr, heq⟩ := map_eq_some_iff.mp hstep
    cases heq
    have hmove := workerStep_move hr
    have hsum := sum_update (fun w : Worker α => w.point.work) s.workers i w'
    have hpos := h.length_pos (i := i)
    simp only [State.work]
    generalize ∑ j, (Function.update s.workers i w' j).point.work = after at hsum
    generalize ∑ j, (s.workers j).point.work = before at hsum
    generalize s.workers i = w at hmove hsum hpos
    cases hmove with
    | takes wait going =>
      have hlen := hpos rfl going
      simp only [Point.work] at hsum
      dsimp only
      omega
    | waits | skips | calls =>
      simp only [Point.work] at hsum
      omega
    | passes | exits =>
      simp only [Point.work] at hsum
      dsimp only
      omega

/-- So only finitely many of them follow one another. -/
theorem length_le_work (h : Inv queueSize trace s queued) {events : List (Event n α)}
    (hint : ∀ e ∈ events, e.internal = true) {t : State n α} {rest : Trace n α}
    (hr : (machine n α).run s events = some (t, rest)) : events.length ≤ s.work := by
  induction events generalizing s trace queued rest with
  | nil => exact Nat.zero_le _
  | cons e events ih =>
    obtain ⟨s', o, rest', hstep, hr', -⟩ := (machine n α).run_cons_eq_some.mp hr
    have he := hint e (mem_cons_self ..)
    have hsettled : Settled s e := by
      cases e with
      | add task => cases he
      | destroy graceful => cases he
      | signal | worker _ | wake | join => trivial
    obtain ⟨queued', h'⟩ := inv_step h hsettled hstep
    have hlt := work_lt h he hstep
    have hle := ih h' (fun e' he' => hint e' (mem_cons_of_mem _ he')) hr'
    rw [length_cons]
    omega

/-- At rest, every worker waits or has exited. -/
theorem AtRest.worker (hrest : AtRest s) (i : Fin n) :
    ((s.workers i).point = .wait ∧ s.pool.notify = 0) ∨ (s.workers i).point = .exited := by
  have hnone : workerStep s.pool (s.workers i) = none := map_eq_none_iff.mp (hrest (.worker i) rfl)
  cases hpoint : (s.workers i).point with
  | look => simp [workerStep, hpoint] at hnone
  | wait =>
    refine .inl ⟨rfl, ?_⟩
    simp only [workerStep, hpoint, ite_eq_right_iff, reduceCtorEq, imp_false] at hnone
    omega
  | grab =>
    rw [workerStep, hpoint] at hnone
    dsimp only at hnone
    split at hnone <;> cases hnone
  | call task => simp [workerStep, hpoint] at hnone
  | exited => exact .inr rfl

/-- **At rest nothing is left**: not in the queue, and not with a worker. -/
theorem Inv.at_rest (h : Inv queueSize trace s queued) (hn : 0 < n) (hrest : AtRest s) :
    queued = [] ∧ s.hands = 0 := by
  have hhands : s.hands = 0 := Finset.sum_eq_zero fun i _ => by
    rcases hrest.worker i with ⟨hp, -⟩ | hp <;> rw [hp] <;> rfl
  have htokens : s.tokens = 0 := Finset.sum_eq_zero fun i _ => by
    rcases hrest.worker i with ⟨hp, -⟩ | hp <;> rw [hp] <;> rfl
  have hsignals : s.signals = 0 := by
    have hnone := hrest .signal rfl
    simp only [step, ite_eq_right_iff, reduceCtorEq, imp_false] at hnone
    omega
  refine ⟨eq_nil_of_length_eq_zero ?_, hhands⟩
  by_cases hall : ∀ i, (s.workers i).point = .exited
  · have halive : s.alive = 0 := Finset.sum_eq_zero fun i _ => by rw [hall i]; rfl
    cases h.phase with
    | running shutdown idle tokens settled fresh alive => omega
    | closing shutdown called tokens gone => exact gone (by omega)
  · obtain ⟨i, hi⟩ := not_forall.mp hall
    have hnotify := ((hrest.worker i).resolve_right hi).2
    cases h.phase with
    | running shutdown idle tokens settled fresh alive => omega
    | closing shutdown called tokens gone =>
      have hleft : s.destroyer.left = 0 := by
        have hnone := hrest .wake rfl
        rw [step] at hnone
        split at hnone
        · cases hnone
        · rename_i hother
          cases hd : s.destroyer with
          | none => rfl
          | done => rfl
          | waking left =>
            cases left with
            | zero => rfl
            | succ left => exact absurd hd (hother left)
      omega

theorem inv_create (n queueSize : Nat) (hsize : 0 < queueSize) :
    Inv queueSize [] (create n queueSize α) ([] : List α) where
  size := length_replicate
  ring := .nil (by rw [create, length_replicate]; exact hsize)
  tail := (Nat.zero_mod _).symm
  count := rfl
  tasks := by
    have hhands : (create n queueSize α).hands = 0 := Finset.sum_eq_zero fun i _ => rfl
    rw [hhands]
    rfl
  started := by
    have halive : (create n queueSize α).alive = n := by simp [State.alive, create, Point.live]
    rw [halive]
    rfl
  phase := by
    refine .running rfl rfl ?_ (.inl rfl) (fun _ _ => rfl) ?_
    · have htokens : (create n queueSize α).tokens = 0 := Finset.sum_eq_zero fun i _ => rfl
      rw [htokens]
      rfl
    · simp [State.alive, create, Point.live]

end Invariant

/-- **Each accepted task is called exactly once.** For every number of workers and queue size, in every
run of settled steps, however they interleave: the count is that of a queue of that size, no
worker takes from an empty queue, no task is called that was not accepted or more often than
it was accepted, the steps the pool takes by itself come to an end, and where they have, every
task that was accepted has been called, as often as it was accepted. -/
theorem tasks_called_once {n queueSize : Nat} {α : Type} (hn : 0 < n) (hsize : 0 < queueSize)
    {events : List (Event n α)} {s : State n α} {trace : Trace n α}
    (hm : (machine n α).Meets Settled (create n queueSize α) events)
    (hr : (machine n α).run (create n queueSize α) events = some (s, trace)) :
    (0 ≤ s.pool.count ∧ s.pool.count ≤ queueSize) ∧
    (∀ i s' task, step s (.worker i) = some (s', .took task) → 0 < s.pool.count) ∧
    (called trace : Multiset α) ≤ accepted trace ∧
    (∀ (rest : List (Event n α)) (t : State n α) (trace' : Trace n α), (∀ e ∈ rest, e.internal = true) →
      (machine n α).run s rest = some (t, trace') → rest.length ≤ s.work) ∧
    (AtRest s → (called trace : Multiset α) = accepted trace) := by
  obtain ⟨queued, hinv⟩ := (machine n α).run_invariant Settled (fun past s => ∃ queued, Inv queueSize past s queued)
    (fun past s e s' o h hc hstep => by
      obtain ⟨queued, h⟩ := h
      exact inv_step h hc hstep) ⟨[], inv_create n queueSize hsize⟩ hm hr
  have hcount := hinv.count
  have hfits : (queued.map some).length ≤ s.pool.queue.length := hinv.ring.fits
  rw [length_map, hinv.size] at hfits
  refine ⟨⟨by omega, by omega⟩, fun i s' task hstep => ?_, ?_, fun rest t trace' hint hrun => ?_, fun hrest => ?_⟩
  · obtain ⟨⟨pool', w', o⟩, hstep', heq⟩ := map_eq_some_iff.mp hstep
    obtain rfl : o = .took task := congrArg Prod.snd heq
    have hmove := workerStep_move hstep'
    have hpos := hinv.length_pos (i := i)
    generalize s.workers i = w at hmove hpos
    cases hmove with
    | takes wait going =>
      have hlen := hpos rfl going
      omega
  · rw [hinv.tasks, add_assoc]
    exact Multiset.le_add_right _ _
  · exact length_le_work hinv hint hrun
  · obtain ⟨rfl, hhands⟩ := hinv.at_rest hn hrest
    rw [hinv.tasks, hhands]
    simp

def firstWorker : Fin 2 := ⟨0, Nat.zero_lt_two⟩

def secondWorker : Fin 2 := ⟨1, Nat.one_lt_two⟩

def oneTask : List (Event 2 Nat) :=
  [.worker firstWorker, .worker secondWorker, .add 7, .signal, .worker firstWorker, .worker firstWorker,
    .worker firstWorker, .destroy true, .wake, .wake, .worker firstWorker, .worker firstWorker, .worker firstWorker,
    .worker secondWorker, .worker secondWorker, .join]

theorem tasks_called_once_seven :
    ∃ (s : State 2 Nat) (trace : Trace 2 Nat), (machine 2 Nat).run (create 2 1 Nat) oneTask = some (s, trace) ∧
      (0 ≤ s.pool.count ∧ s.pool.count ≤ (1 : Nat)) ∧
      (∀ i s' task, step s (.worker i) = some (s', .took task) → 0 < s.pool.count) ∧
      (called trace : Multiset Nat) ≤ accepted trace ∧
      (∀ (rest : List (Event 2 Nat)) (t : State 2 Nat) (trace' : Trace 2 Nat), (∀ e ∈ rest, e.internal = true) →
        (machine 2 Nat).run s rest = some (t, trace') → rest.length ≤ s.work) ∧
      (AtRest s → (called trace : Multiset Nat) = accepted trace) := by
  obtain ⟨⟨s, trace⟩, hr⟩ : ∃ after, (machine 2 Nat).run (create 2 1 Nat) oneTask = some after :=
    isSome_iff_exists.mp (by decide +kernel)
  exact ⟨s, trace, hr, tasks_called_once (by decide) (by decide) (by decide +kernel) hr⟩

def onlyWorker : Fin 1 := Fin.last 0

def taskBeforeLook : List (Event 1 Nat) :=
  [.add 7, .signal, .worker onlyWorker, .worker onlyWorker, .worker onlyWorker, .worker onlyWorker, .worker onlyWorker]

/-- The signal of that task then lets it take a second one from an empty queue, and call the
cell's old task again; and a task that is added to a pool that shuts down returns 0 and is
never called. -/
theorem task_called_twice :
    ((machine 1 Nat).run (create 1 1 Nat) (taskBeforeLook ++ [.worker onlyWorker, .worker onlyWorker])).map
        (fun r => (r.1.pool.count, accepted r.2, called r.2)) = some (-1, [7], [7, 7]) ∧
      ((machine 1 Nat).run (create 1 1 Nat)
          [.destroy true, .add 8, .wake, .worker onlyWorker, .worker onlyWorker, .join]).map
        (fun r => (accepted r.2, called r.2)) = some ([8], []) := by
  decide +kernel

end Qumios.ThreadPool
