import Qumios.Lib.Doubly
import Qumios.Lib.Run

/-! `qm_utils_list.c`: a doubly linked list with its length.

The nodes belong to the caller, who allocates them and hands them in; the list writes their
links. Reading or writing through a null pointer ends a call with `none`. `free` and `match`
concern the values of the nodes and are left out.

`Is` says that a list holds a sequence, read forwards and backwards. Pushing, popping and
removing do to that sequence what their names say. `reverse` does not: it turns the links
around one by one from the second node on, and nothing writes the `prev` of the node that was
first (`reverse_forward`). -/
namespace Qumios.UtilsList
open Run Linked List Option

/-! ### The list -/

/-- `qm_list_t`, with the links of all nodes. -/
structure LinkedList (ι : Type) where
  head : Option ι
  tail : Option ι
  len : Int
  next : ι → Option ι
  prev : ι → Option ι

variable {ι : Type} [DecidableEq ι]

namespace LinkedList

/-- `qm_list_new`. -/
def new (next prev : ι → Option ι) : LinkedList ι := ⟨none, none, 0, next, prev⟩

/-- `qm_list_rpush`. -/
def rpush (self : LinkedList ι) : Option ι → Option (LinkedList ι × Option ι)
  | none => some (self, none)
  | some node =>
    if self.len ≠ 0 then do
      let tail ← self.tail
      some ({ self with
        tail := some node, len := self.len + 1
        next := Function.update (Function.update self.next node none) tail (some node)
        prev := Function.update self.prev node self.tail }, some node)
    else
      some ({ head := some node, tail := some node, len := self.len + 1
              next := Function.update self.next node none
              prev := Function.update self.prev node none }, some node)

/-- `qm_list_rpop`. -/
def rpop (self : LinkedList ι) : Option (LinkedList ι × Option ι) :=
  if self.len = 0 then some (self, none)
  else do
    let node ← self.tail
    let self' ←
      if self.len - 1 ≠ 0 then do
        let tail ← self.prev node
        some { self with tail := some tail, len := self.len - 1, next := Function.update self.next tail none }
      else some { self with head := none, tail := none, len := self.len - 1 }
    some ({ self' with
      next := Function.update self'.next node none, prev := Function.update self'.prev node none }, some node)

/-- `qm_list_lpop`. -/
def lpop (self : LinkedList ι) : Option (LinkedList ι × Option ι) :=
  if self.len = 0 then some (self, none)
  else do
    let node ← self.head
    let self' ←
      if self.len - 1 ≠ 0 then do
        let head ← self.next node
        some { self with head := some head, len := self.len - 1, prev := Function.update self.prev head none }
      else some { self with head := none, tail := none, len := self.len - 1 }
    some ({ self' with
      next := Function.update self'.next node none, prev := Function.update self'.prev node none }, some node)

/-- `qm_list_lpush`. -/
def lpush (self : LinkedList ι) : Option ι → Option (LinkedList ι × Option ι)
  | none => some (self, none)
  | some node =>
    if self.len ≠ 0 then do
      let head ← self.head
      some ({ self with
        head := some node, len := self.len + 1
        next := Function.update self.next node self.head
        prev := Function.update (Function.update self.prev node none) head (some node) }, some node)
    else
      some ({ head := some node, tail := some node, len := self.len + 1
              next := Function.update self.next node none
              prev := Function.update self.prev node none }, some node)

/-- `qm_list_remove`. -/
def remove (self : LinkedList ι) (node : ι) : LinkedList ι :=
  let self :=
    match self.prev node with
    | some p => { self with next := Function.update self.next p (self.next node) }
    | none => { self with head := self.next node }
  let self :=
    match self.next node with
    | some n => { self with prev := Function.update self.prev n (self.prev node) }
    | none => { self with tail := self.prev node }
  { self with len := self.len - 1 }

/-- `qm_list_iterator_next` of an iterator from the head: the node, and where the iterator goes. -/
def iteratorNext (self : LinkedList ι) (it : Option ι) : Option ι × Option ι :=
  match it with
  | some curr => (some curr, self.next curr)
  | none => (none, none)

/-- The loop of `qm_list_reverse`; `none` if it is not at the end after so many rounds. -/
def reverseLoop : Nat → Option ι → LinkedList ι → Option (LinkedList ι)
  | _, none, self => some self
  | 0, some _, _ => none
  | rounds + 1, some cur, self =>
    let tmp := self.prev cur
    let self := { self with prev := Function.update self.prev cur (self.next cur) }
    let self := { self with next := Function.update self.next cur tmp }
    reverseLoop rounds (self.prev cur) self

/-- `qm_list_reverse`; `memory` says whether there is memory for its iterator. -/
def reverse (rounds : Nat) (memory : Bool) (self : LinkedList ι) : Option (LinkedList ι) :=
  if self.len = 1 then some self
  else if memory = false then some self
  else do
    let (headNode, it) := self.iteratorNext self.head
    let (curNode, _) := self.iteratorNext it
    let self ← reverseLoop rounds curNode self
    let headNode ← headNode
    some { self with next := Function.update self.next headNode none, head := self.tail, tail := self.head }

/-- The nodes `next` visits from the head, as many as `len` says. -/
def nodes (self : LinkedList ι) : List ι := walk self.next self.len.toNat self.head

end LinkedList

inductive Op (ι : Type) where
  | rpush (node : Option ι)
  | lpush (node : Option ι)
  | rpop
  | lpop
  | remove (node : ι)
  | reverse (memory : Bool)

def step (rounds : Nat) (self : LinkedList ι) : Op ι → Option (LinkedList ι × Option ι)
  | .rpush node => self.rpush node
  | .lpush node => self.lpush node
  | .rpop => self.rpop
  | .lpop => self.lpop
  | .remove node => some (self.remove node, none)
  | .reverse memory => (self.reverse rounds memory).map fun self' => (self', none)

def machine (ι : Type) [DecidableEq ι] (rounds : Nat) : Machine (LinkedList ι) (Op ι) (Option ι) where
  step := step rounds

/-! ### Sequences -/

namespace Sequence

/-- What each operation does to a sequence, and the node it returns. -/
def step (xs : List ι) : Op ι → List ι × Option ι
  | .rpush none => (xs, none)
  | .rpush (some node) => (xs ++ [node], some node)
  | .lpush none => (xs, none)
  | .lpush (some node) => (node :: xs, some node)
  | .rpop => (xs.dropLast, xs.getLast?)
  | .lpop => (xs.tail, xs.head?)
  | .remove node => (xs.erase node, none)
  | .reverse _ => (xs.reverse, none)

def machine (ι : Type) [DecidableEq ι] : Machine (List ι) (Op ι) (Option ι) where
  step xs op := some (step xs op)

end Sequence

/-! ### A list that holds a sequence -/

/-- The list is the sequence, in both directions. -/
structure Is (l : LinkedList ι) (xs : List ι) : Prop where
  head : l.head = xs.head?
  tail : l.tail = xs.getLast?
  len : l.len = xs.length
  links : Doubly l.next l.prev none xs none

namespace Is
variable {l : LinkedList ι} {xs : List ι}

omit [DecidableEq ι]

theorem forward (h : Is l xs) : Chain l.next l.head xs := by
  rw [h.head]
  exact h.links.chain

theorem backward (h : Is l xs) : Chain l.prev l.tail xs.reverse := by
  rw [h.tail, ← head?_reverse]
  exact h.links.symm.chain

theorem nodup (h : Is l xs) : xs.Nodup := h.forward.nodup

theorem nodes (h : Is l xs) : l.nodes = xs := by
  refine h.forward.walk_eq ?_
  rw [h.len, Int.toNat_natCast]

end Is

/-! ### The other end

`lpush` and `lpop` are `rpush` and `rpop` with the two directions exchanged. -/

namespace LinkedList

omit [DecidableEq ι] in
def mirror (l : LinkedList ι) : LinkedList ι := ⟨l.tail, l.head, l.len, l.prev, l.next⟩

def mirrored (r : LinkedList ι × Option ι) : LinkedList ι × Option ι := (r.1.mirror, r.2)

theorem lpush_mirror (l : LinkedList ι) (node : Option ι) : l.lpush node = (l.mirror.rpush node).map mirrored := by
  cases node with
  | none => rfl
  | some node =>
    cases hhead : l.head <;> by_cases hlen : l.len = 0 <;> simp [lpush, rpush, mirror, mirrored, hlen, hhead]

theorem lpop_mirror (l : LinkedList ι) : l.lpop = l.mirror.rpop.map mirrored := by
  by_cases hlen : l.len = 0
  · rw [lpop, rpop, if_pos hlen, if_pos (show l.mirror.len = 0 from hlen)]
    rfl
  · cases hhead : l.head with
    | none => simp [lpop, rpop, mirror, hlen, hhead]
    | some node =>
      cases hnext : l.next node <;> by_cases hone : l.len - 1 = 0 <;>
        simp [lpop, rpop, mirror, mirrored, hlen, hhead, hnext, hone]

end LinkedList

namespace LinkedList

/-- `remove` by its fields. -/
theorem remove_eq (l : LinkedList ι) {node : ι} (hself : l.prev node ≠ some node) :
    l.remove node =
      { head := if l.prev node = none then l.next node else l.head
        tail := if l.next node = none then l.prev node else l.tail
        len := l.len - 1
        next := setAt l.next (l.prev node) (l.next node)
        prev := setAt l.prev (l.next node) (l.prev node) } := by
  cases hprev : l.prev node with
  | none => cases hnext : l.next node <;> simp [remove, setAt, hprev, hnext]
  | some p =>
    have hp : node ≠ p := fun heq => hself (by rw [hprev, heq])
    cases hnext : l.next node <;> simp [remove, setAt, hprev, hnext, hp]

end LinkedList

namespace Is
variable {l : LinkedList ι} {xs : List ι}

omit [DecidableEq ι] in
theorem mirror (h : Is l xs) : Is l.mirror xs.reverse :=
  ⟨by rw [head?_reverse]; exact h.tail, by rw [getLast?_reverse]; exact h.head,
    by rw [length_reverse]; exact h.len, h.links.symm⟩

/-! ### Each operation -/

variable {node t : ι}

theorem rpush (h : Is l xs) (hnew : node ∉ xs) :
    ∃ l', l.rpush (some node) = some (l', some node) ∧ Is l' (xs ++ [node]) := by
  have hlinks := h.links.snoc h.nodup hnew
  rw [or_none, ← h.tail] at hlinks
  have hlen : l.len + 1 = (xs ++ [node]).length := by
    rw [h.len, length_append]
    rfl
  rcases eq_nil_or_concat' xs with rfl | ⟨front, t, rfl⟩
  · rw [h.tail] at hlinks
    exact ⟨_, if_neg (not_not.mpr h.len), rfl, rfl, hlen, hlinks⟩
  · have hne : l.len ≠ 0 := by
      rw [h.len, length_append, length_singleton]
      omega
    have htail : l.tail = some t := h.tail.trans getLast?_concat
    have hcall : l.rpush (some node) = some ({ l with
        tail := some node, len := l.len + 1
        next := Function.update (Function.update l.next node none) t (some node)
        prev := Function.update l.prev node (some t) }, some node) := by
      rw [LinkedList.rpush, if_pos hne, htail]
      rfl
    have hhead : l.head = (front ++ [t] ++ [node]).head? := by
      rw [h.head]
      cases front <;> rfl
    rw [htail] at hlinks
    exact ⟨_, hcall, hhead, getLast?_concat.symm, hlen, hlinks⟩

theorem rpop_nil (h : Is l []) : l.rpop = some (l, none) := if_pos h.len

theorem rpop {front : List ι} (h : Is l (front ++ [t])) : ∃ l', l.rpop = some (l', some t) ∧ Is l' front := by
  have hlen : l.len - 1 = front.length := by
    rw [h.len, length_append, length_singleton]
    omega
  have hne : l.len ≠ 0 := by omega
  have htail : l.tail = some t := h.tail.trans getLast?_concat
  have hold (f : ι → Option ι) (j : ι) (hj : j ∈ front) : Function.update f t none j = f j := by
    refine Function.update_of_ne (fun heq => ?_) ..
    exact (nodup_append.mp h.nodup).2.2 j hj t (by simp) heq
  obtain ⟨hfront, hprev, -, -⟩ := Doubly.append.mp h.links
  rw [or_none] at hprev
  have hlinks := (hfront.setLast (nodup_append.mp h.nodup).1 none).congr (hold _) (hold _)
  rcases eq_nil_or_concat' front with rfl | ⟨front, t', rfl⟩
  · have hcall : l.rpop = some (⟨none, none, l.len - 1, Function.update l.next t none,
        Function.update l.prev t none⟩, some t) := by
      rw [LinkedList.rpop, if_neg hne, htail, hlen]
      rfl
    exact ⟨_, hcall, rfl, rfl, hlen, hlinks⟩
  · rw [getLast?_concat] at hprev hlinks
    have hcall : l.rpop = some (⟨l.head, some t', l.len - 1,
        Function.update (Function.update l.next t' none) t none, Function.update l.prev t none⟩, some t) := by
      have hmore : l.len - 1 ≠ 0 := by
        rw [hlen, length_append, length_singleton]
        omega
      rw [LinkedList.rpop, if_neg hne, htail]
      simp only [bind_eq_bind, bind_some, if_pos hmore, hprev]
    have hhead : l.head = (front ++ [t']).head? := by
      rw [h.head]
      cases front <;> rfl
    exact ⟨_, hcall, hhead, getLast?_concat.symm, hlen, hlinks⟩

theorem lpush (h : Is l xs) (hnew : node ∉ xs) :
    ∃ l', l.lpush (some node) = some (l', some node) ∧ Is l' (node :: xs) := by
  obtain ⟨l', hcall, his⟩ := h.mirror.rpush fun hmem => hnew (mem_reverse.mp hmem)
  refine ⟨l'.mirror, by rw [LinkedList.lpush_mirror, hcall]; rfl, ?_⟩
  simpa using his.mirror

theorem lpop_nil (h : Is l []) : l.lpop = some (l, none) := if_pos h.len

theorem lpop (h : Is l (t :: xs)) : ∃ l', l.lpop = some (l', some t) ∧ Is l' xs := by
  have hmirror := h.mirror
  rw [reverse_cons] at hmirror
  obtain ⟨l', hcall, his⟩ := hmirror.rpop
  refine ⟨l'.mirror, by rw [LinkedList.lpop_mirror, hcall]; rfl, ?_⟩
  simpa using his.mirror

/-- A node of the list is taken out of it. -/
theorem remove {a b : List ι} (h : Is l (a ++ node :: b)) : Is (l.remove node) (a ++ b) := by
  obtain ⟨-, hprev, hnext, -⟩ := Doubly.append.mp h.links
  rw [or_none] at hprev hnext
  have hlinks := h.links.unlink h.nodup
  rw [or_none, or_none] at hlinks
  have hself : l.prev node ≠ some node := fun hself => by
    rw [hprev] at hself
    exact (nodup_append.mp h.nodup).2.2 node (mem_of_mem_getLast? hself) node mem_cons_self rfl
  rw [l.remove_eq hself, hprev, hnext]
  refine ⟨?_, ?_, ?_, hlinks⟩
  · cases a with
    | nil => rfl
    | cons i rest => simp [h.head]
  · rcases eq_nil_or_concat' b with rfl | ⟨front, t, rfl⟩
    · simp
    · simp [h.tail, getLast?_append, getLast?_cons]
  · show l.len - 1 = _
    rw [h.len, length_append, length_append, length_cons]
    omega

end Is

/-! ### Runs -/

/-- A node is pushed that is not in the list, one is removed that is; a list is reversed when it has
one node, or when it has none and there is no memory for the iterator. -/
def Orderly (l : LinkedList ι) : Op ι → Prop
  | .rpush (some node) => node ∉ l.nodes
  | .lpush (some node) => node ∉ l.nodes
  | .remove node => node ∈ l.nodes
  | .reverse memory => l.len = 1 ∨ (l.len = 0 ∧ memory = false)
  | _ => True

instance (l : LinkedList ι) : (op : Op ι) → Decidable (Orderly l op)
  | .rpush none | .lpush none | .rpop | .lpop => isTrue trivial
  | .rpush (some node) => inferInstanceAs (Decidable (node ∉ l.nodes))
  | .lpush (some node) => inferInstanceAs (Decidable (node ∉ l.nodes))
  | .remove node => inferInstanceAs (Decidable (node ∈ l.nodes))
  | .reverse memory => inferInstanceAs (Decidable (l.len = 1 ∨ (l.len = 0 ∧ memory = false)))

variable {l : LinkedList ι}

theorem Is.reverse {xs : List ι} (h : Is l xs) (rounds : Nat) {memory : Bool}
    (ho : l.len = 1 ∨ (l.len = 0 ∧ memory = false)) : l.reverse rounds memory = some l ∧ xs.reverse = xs := by
  rw [LinkedList.reverse]
  rcases ho with hone | ⟨hzero, rfl⟩
  · obtain ⟨x, rfl⟩ := length_eq_one_iff.mp (Int.ofNat_inj.mp (h.len.symm.trans hone))
    exact ⟨if_pos hone, rfl⟩
  · obtain rfl := length_eq_zero_iff.mp (Int.ofNat_inj.mp (h.len.symm.trans hzero))
    exact ⟨by rw [if_neg (by omega), if_pos rfl], rfl⟩

/-- **One operation.** -/
theorem Is.step {xs : List ι} (h : Is l xs) (rounds : Nat) {op : Op ι} (ho : Orderly l op) :
    ∃ l', UtilsList.step rounds l op = some (l', (Sequence.step xs op).2) ∧ Is l' (Sequence.step xs op).1 := by
  cases op with
  | rpush node =>
    cases node with
    | none => exact ⟨l, rfl, h⟩
    | some node => exact h.rpush (h.nodes ▸ ho)
  | lpush node =>
    cases node with
    | none => exact ⟨l, rfl, h⟩
    | some node => exact h.lpush (h.nodes ▸ ho)
  | rpop =>
    rcases eq_nil_or_concat' xs with rfl | ⟨front, t, rfl⟩
    · exact ⟨l, h.rpop_nil, h⟩
    · rw [Sequence.step, dropLast_concat, getLast?_concat]
      exact h.rpop
  | lpop =>
    cases xs with
    | nil => exact ⟨l, h.lpop_nil, h⟩
    | cons t rest => exact h.lpop
  | remove node =>
    have hmem : node ∈ xs := h.nodes ▸ ho
    obtain ⟨a, b, rfl⟩ := append_of_mem hmem
    have ha : node ∉ a := fun ha => (nodup_append.mp h.nodup).2.2 node ha node mem_cons_self rfl
    refine ⟨l.remove node, rfl, ?_⟩
    rw [Sequence.step, erase_append_right _ ha, erase_cons_head]
    exact h.remove
  | reverse memory =>
    obtain ⟨hcall, hsame⟩ := h.reverse rounds ho
    refine ⟨l, ?_, ?_⟩
    · rw [UtilsList.step, hcall]
      rfl
    · rw [Sequence.step, hsame]
      exact h

/-- **The list is a deque**: in every run whose operations are `Orderly`, each returns the node it
returns on a sequence, and at the end `next` from the head visits the sequence, `len` nodes up to
the tail, and `prev` from the tail visits it backwards. -/
theorem list_is_deque (rounds : Nat) (next prev : ι → Option ι) (ops : List (Op ι))
    (ho : (machine ι rounds).Meets Orderly (LinkedList.new next prev) ops) :
    ∃ l xs trace, (machine ι rounds).run (LinkedList.new next prev) ops = some (l, trace) ∧
      (Sequence.machine ι).run [] ops = some (xs, trace) ∧ l.len = xs.length ∧
      Chain l.next l.head xs ∧ l.tail = xs.getLast? ∧ Chain l.prev l.tail xs.reverse := by
  have hnew : Is (LinkedList.new next prev) [] := ⟨rfl, rfl, rfl, trivial⟩
  obtain ⟨l, xs, trace, hrun, hseq, his⟩ :=
    (machine ι rounds).run_refines (Sequence.machine ι) Orderly Is
      (fun l xs op h hop => by
        obtain ⟨l', hstep, his⟩ := h.step rounds hop
        exact ⟨l', _, _, hstep, rfl, his⟩) hnew ho
  exact ⟨l, xs, trace, hrun, hseq, his.len, his.forward, his.tail, his.backward⟩

/-- Two nodes pushed at the two ends, with a reversal while there is one, then popped and removed. -/
theorem list_is_deque_two :
    ∃ l xs trace,
      (machine (Fin 2) 0).run (LinkedList.new (fun _ => none) fun _ => none)
        [.rpush (some 0), .reverse true, .lpush (some 1), .rpop, .remove 1] = some (l, trace) ∧
      (Sequence.machine (Fin 2)).run []
        [.rpush (some 0), .reverse true, .lpush (some 1), .rpop, .remove 1] = some (xs, trace) ∧
      l.len = xs.length ∧ Chain l.next l.head xs ∧ l.tail = xs.getLast? ∧ Chain l.prev l.tail xs.reverse :=
  list_is_deque 0 _ _ _ (by decide)

/-! ### Reversing -/

/-- The loop exchanges the two links of every node from the cursor on. -/
theorem LinkedList.reverseLoop_spec {rounds : Nat} {cur : Option ι} {ys : List ι} (hc : Chain l.next cur ys)
    (hr : ys.length ≤ rounds) :
    LinkedList.reverseLoop rounds cur l = some { l with
      next := fun j => if j ∈ ys then l.prev j else l.next j
      prev := fun j => if j ∈ ys then l.next j else l.prev j } := by
  induction ys generalizing rounds cur l with
  | nil =>
    rw [show cur = none from hc]
    simp [reverseLoop]
  | cons y rest ih =>
    obtain ⟨rounds, rfl⟩ : ∃ r, rounds = r + 1 := Nat.exists_eq_succ_of_ne_zero (by simp at hr; omega)
    have hy : y ∉ rest := (nodup_cons.mp hc.nodup).1
    have hrest : Chain (Function.update l.next y (l.prev y)) (Function.update l.prev y (l.next y) y) rest := by
      rw [Function.update_self]
      exact hc.2.congr fun j hj => Function.update_of_ne (ne_of_mem_of_not_mem hj hy) ..
    rw [hc.1, reverseLoop, ih hrest (by simpa using hr)]
    simp only [Option.some.injEq, mk.injEq, true_and]
    constructor <;> funext j <;> by_cases hj : j = y <;> simp [hj, hy]

/-- **What reversing two or more nodes does**: `next` from the new head visits them in the other
order, up to the node that was first. The `prev` of that node stays null, so from the new tail
`prev` visits it alone. -/
theorem LinkedList.reverse_forward {x y : ι} {rest : List ι} {rounds : Nat} (h : Is l (x :: y :: rest))
    (hr : rest.length + 1 ≤ rounds) :
    ∃ l', l.reverse rounds true = some l' ∧ l'.len = l.len ∧
      Chain l'.next l'.head (x :: y :: rest).reverse ∧ Chain l'.prev l'.tail [x] := by
  have hlen : l.len ≠ 1 := by
    rw [h.len, length_cons, length_cons]
    omega
  have hx : x ∉ y :: rest := (nodup_cons.mp h.nodup).1
  have hfirst : l.prev x = none := h.links.1
  have hloop := reverseLoop_spec h.forward.2 hr
  have hcall : l.reverse rounds true = some { l with
      next := Function.update (fun j => if j ∈ y :: rest then l.prev j else l.next j) x none
      prev := fun j => if j ∈ y :: rest then l.next j else l.prev j
      head := l.tail, tail := some x } := by
    have hnext : l.next x = some y := h.links.2.1
    have hhead : l.head = some x := h.head
    rw [hnext] at hloop
    rw [reverse, if_neg hlen, if_neg (by decide)]
    simp only [hhead, iteratorNext, hnext, hloop, bind_eq_bind, bind_some]
  refine ⟨_, hcall, rfl, ?_, rfl, ?_⟩
  · -- on the nodes of the list, `next` is what `prev` was: null at the first
    refine h.backward.congr fun j hj => ?_
    rcases mem_cons.mp (mem_reverse.mp hj) with rfl | hj
    · dsimp only
      rw [Function.update_self, hfirst]
    · dsimp only
      rw [Function.update_of_ne (ne_of_mem_of_not_mem hj hx), if_pos hj]
  · exact (if_neg hx).trans hfirst

theorem reverse_forward_pair :
    ∃ l', LinkedList.reverse 1 true ⟨some false, some true, 2, (if · then none else some true),
        (if · then some false else none)⟩ = some l' ∧ l'.len = 2 ∧
      Chain l'.next l'.head [true, false] ∧ Chain l'.prev l'.tail [false] :=
  LinkedList.reverse_forward (show Is _ [false, true] by exact ⟨rfl, rfl, rfl, rfl, rfl, rfl, rfl, trivial⟩) le_rfl

/-- Two nodes pushed and reversed: from the tail, `prev` does not come to the second. -/
theorem reversed_pair_not_deque :
    ∃ l trace,
      (machine (Fin 2) 2).run (LinkedList.new (fun _ => none) fun _ => none)
        [.rpush (some 0), .rpush (some 1), .reverse true] = some (l, trace) ∧
      (Sequence.machine (Fin 2)).run [] [.rpush (some 0), .rpush (some 1), .reverse true] = some ([1, 0], trace) ∧
      l.len = 2 ∧ l.tail = some 0 ∧ l.prev 0 = none ∧ ¬ Chain l.prev l.tail [1, 0].reverse := by
  refine ⟨_, _, rfl, rfl, rfl, rfl, rfl, ?_⟩
  rintro ⟨-, hprev, -⟩
  cases hprev

end Qumios.UtilsList
