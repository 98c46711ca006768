import Qumios.Lib.Run
import Qumios.Lib.Ring

/-! The thread pool (`threadpool.c`): a ring of tasks under a mutex, and a semaphore that
tells the workers of them.

Any number of callers add tasks, the workers take them, and one caller destroys the pool.
The steps that interleave are the sections under the mutex, the operations on the
semaphore and the calls of the tasks' functions. A worker looks for work in one section
and takes it in another; whether it waits for the semaphore in between is kept in a
variable that is set once and never cleared. -/
namespace Qumios.ThreadPool
open Run

/-- `QM_EFULL`. -/
def efull : Int := 3

/-- `threadpool_shutdown_t`, or none. -/
inductive Shutdown where
  | no
  | immediate
  | graceful
  deriving DecidableEq, Repr

/-- `threadpool_t`; a task is a function with its argument, and a cell that was never
written holds none. `notify` is the count of the semaphore. -/
structure Pool (α : Type) where
  queue : List (Option α)
  head : Nat
  tail : Nat
  count : Int
  shutdown : Shutdown
  started : Int
  notify : Nat

/-- Where a worker is. -/
inductive Point (α : Type) where
  /-- Before it looks at the queue. -/
  | look
  /-- Before `qm_sem_wait`. -/
  | wait
  /-- Before it takes a task. -/
  | grab
  /-- Before it calls the function of the task it has taken. -/
  | call (task : Option α)
  | exited

structure Worker (α : Type) where
  /-- The variable `wait` of the worker. -/
  wait : Bool
  point : Point α

/-- `threadpool_destroy`: how many of the workers are still to be woken up. -/
inductive Destroyer where
  | none
  | waking (left : Nat)
  | done
  deriving DecidableEq, Repr

structure State (n : Nat) (α : Type) where
  pool : Pool α
  workers : Fin n → Worker α
  /-- The callers of `threadpool_add` that are yet to signal. -/
  signals : Nat
  destroyer : Destroyer

inductive Event (n : Nat) (α : Type) where
  /-- The section of `threadpool_add`. -/
  | add (task : α)
  /-- The signal of a `threadpool_add`. -/
  | signal
  | worker (i : Fin n)
  /-- `threadpool_destroy`, up to its first signal. -/
  | destroy (graceful : Bool)
  | wake
  /-- `threadpool_destroy` finds that all workers have exited. -/
  | join

inductive Output (α : Type) where
  /-- What `threadpool_add` returns. -/
  | ret (code : Int)
  | took (task : Option α)
  | called (task : Option α)
  | quiet

section Steps
variable {n : Nat} {α : Type}

/-- `threadpool_create`. -/
def create (n queueSize : Nat) (α : Type) : State n α where
  pool :=
    { queue := List.replicate queueSize none
      head := 0
      tail := 0
      count := 0
      shutdown := .no
      started := n
      notify := 0 }
  workers := fun _ => ⟨false, .look⟩
  signals := 0
  destroyer := .none

/-- The section of `threadpool_add`; a pool that shuts down takes no task and returns 0. -/
def Pool.add (pool : Pool α) (task : α) : Option (Pool α) × Int :=
  if pool.count = pool.queue.length then (none, -efull)
  else if pool.shutdown ≠ .no then (none, 0)
  else
    (some
      { pool with
        queue := pool.queue.set pool.tail (some task)
        tail := (pool.tail + 1) % pool.queue.length
        count := pool.count + 1 }, 0)

/-- One step of `threadpool_task`. -/
def workerStep (pool : Pool α) (w : Worker α) : Option (Pool α × Worker α × Output α) :=
  match w.point with
  | .look =>
    let wait := if pool.count = 0 ∧ pool.shutdown = .no then true else w.wait
    some (pool, ⟨wait, if wait then .wait else .grab⟩, .quiet)
  | .wait => if 0 < pool.notify then some ({ pool with notify := pool.notify - 1 }, { w with point := .grab }, .quiet) else none
  | .grab =>
    if pool.shutdown = .immediate ∨ (pool.shutdown = .graceful ∧ pool.count = 0) then
      some ({ pool with started := pool.started - 1 }, { w with point := .exited }, .quiet)
    else
      let task := pool.queue.getD pool.head none
      some ({ pool with head := (pool.head + 1) % pool.queue.length, count := pool.count - 1 },
        { w with point := .call task }, .took task)
  | .call task => some (pool, { w with point := .look }, .called task)
  | .exited => none

def step (s : State n α) : Event n α → Option (State n α × Output α)
  | .add task =>
    match s.pool.add task with
    | (none, code) => some (s, .ret code)
    | (some pool, code) => some ({ s with pool := pool, signals := s.signals + 1 }, .ret code)
  | .signal =>
    if 0 < s.signals then
      some ({ s with pool := { s.pool with notify := s.pool.notify + 1 }, signals := s.signals - 1 }, .quiet)
    else none
  | .worker i =>
    (workerStep s.pool (s.workers i)).map fun r =>
      ({ s with pool := r.1, workers := Function.update s.workers i r.2.1 }, r.2.2)
  | .destroy graceful =>
    if s.destroyer = .none then
      some ({ s with
        pool := { s.pool with shutdown := if graceful then .graceful else .immediate }
        destroyer := .waking n }, .quiet)
    else none
  | .wake =>
    match s.destroyer with
    | .waking (left + 1) =>
      some ({ s with pool := { s.pool with notify := s.pool.notify + 1 }, destroyer := .waking left }, .quiet)
    | _ => none
  | .join =>
    match s.destroyer with
    | .waking 0 => if s.pool.started = 0 then some ({ s with destroyer := .done }, .quiet) else none
    | _ => none

def machine (n : Nat) (α : Type) : Machine (State n α) (Event n α) (Output α) := ⟨step⟩

/-! ### What is asked of a run -/

abbrev Trace (n : Nat) (α : Type) := List (Event n α × Output α)

def accepted (trace : Trace n α) : List α := trace.filterMap fun entry =>
  match entry with
  | (.add task, .ret 0) => some task
  | _ => none

def called (trace : Trace n α) : List α := trace.filterMap fun entry =>
  match entry with
  | (_, .called task) => task
  | _ => none

def Event.internal : Event n α → Bool
  | .add _ => false
  | .destroy _ => false
  | _ => true

def AtRest (s : State n α) : Prop := ∀ e : Event n α, e.internal = true → step s e = none

end Steps

end Qumios.ThreadPool
