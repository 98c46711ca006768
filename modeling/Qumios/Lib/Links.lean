import Mathlib

/-! Singly linked lists whose nodes carry their own link, as C programs have them: a
head for each list, one `next` for each node, and loops that walk over *slots*, the
places a pointer can stand in.

`Links` is all heads and links there are, so a node that is put into a second list
takes the rest of the first one with it. `Chain` says that the links from a head spell
a given list; `unlink` and `link` then do to that list what their names say, and leave
every other list alone that has no node in common with it. -/
namespace Qumios.Linked
open List

structure Links (κ ι : Type) where
  head : κ → Option ι
  next : ι → Option ι

/-- A place a pointer stands in: `&head` or `&node->next`. -/
inductive Slot (κ ι : Type) where
  | head (k : κ)
  | next (i : ι)

/-! ### Chains -/

/-- The links from `h` on spell the list. -/
def Chain {ι : Type} (next : ι → Option ι) : Option ι → List ι → Prop
  | h, [] => h = none
  | h, i :: rest => h = some i ∧ Chain next (next i) rest

/-- The nodes from `h` on, at most so many. -/
def walk {ι : Type} (next : ι → Option ι) : Nat → Option ι → List ι
  | rounds + 1, some i => i :: walk next rounds (next i)
  | _, _ => []

section Chain
variable {ι : Type} {next next' : ι → Option ι} {h : Option ι} {xs ys : List ι}

theorem Chain.congr (hc : Chain next h xs) (heq : ∀ i ∈ xs, next' i = next i) : Chain next' h xs := by
  induction xs generalizing h with
  | nil => exact hc
  | cons i rest ih =>
    refine ⟨hc.1, ?_⟩
    rw [heq i mem_cons_self]
    exact ih hc.2 fun j hj => heq j (mem_cons_of_mem i hj)

theorem Chain.unique (hx : Chain next h xs) (hy : Chain next h ys) : xs = ys := by
  induction xs generalizing h ys with
  | nil =>
    cases ys with
    | nil => rfl
    | cons j rest => exact absurd (hx.symm.trans hy.1) (by simp)
  | cons i rest ih =>
    cases ys with
    | nil => exact absurd (hx.1.symm.trans hy) (by simp)
    | cons j rest' =>
      obtain rfl : i = j := Option.some.inj (hx.1.symm.trans hy.1)
      rw [ih hx.2 hy.2]

theorem Chain.of_append {front : List ι} (hc : Chain next h (front ++ xs)) : ∃ h', Chain next h' xs := by
  induction front generalizing h with
  | nil => exact ⟨h, hc⟩
  | cons i rest ih => exact ih hc.2

/-- A chain that ends does not meet a node twice: it would go around from there. -/
theorem Chain.nodup (hc : Chain next h xs) : xs.Nodup := by
  induction xs generalizing h with
  | nil => exact nodup_nil
  | cons i rest ih =>
    refine nodup_cons.mpr ⟨fun hi => ?_, ih hc.2⟩
    obtain ⟨front, back, hsplit⟩ := append_of_mem hi
    have htail := hc.2
    rw [hsplit] at htail
    obtain ⟨h', hagain⟩ := htail.of_append
    have hsame := hagain.2.unique hc.2
    have := congrArg List.length hsame
    rw [hsplit] at this
    simp at this
    omega

theorem Chain.walk_eq (hc : Chain next h xs) {rounds : Nat} (hr : xs.length ≤ rounds) : walk next rounds h = xs := by
  induction xs generalizing h rounds with
  | nil =>
    rw [show h = none from hc]
    cases rounds <;> rfl
  | cons i rest ih =>
    obtain ⟨rounds, rfl⟩ : ∃ r, rounds = r + 1 := Nat.exists_eq_succ_of_ne_zero (by simp at hr; omega)
    rw [hc.1, walk, ih hc.2 (by simpa using hr)]

theorem Chain.length_le {n : Nat} {next : Fin n → Option (Fin n)} {h : Option (Fin n)} {xs : List (Fin n)}
    (hc : Chain next h xs) : xs.length ≤ n := by
  simpa using hc.nodup.length_le_card

end Chain

/-! ### Slots -/

namespace Links
variable {κ ι : Type} [DecidableEq κ] [DecidableEq ι]

def get (l : Links κ ι) : Slot κ ι → Option ι
  | .head k => l.head k
  | .next i => l.next i

def set (l : Links κ ι) : Slot κ ι → Option ι → Links κ ι
  | .head k, v => { l with head := Function.update l.head k v }
  | .next i, v => { l with next := Function.update l.next i v }

variable {l : Links κ ι} {s s' : Slot κ ι} {v : Option ι}

@[simp] theorem get_set_self : (l.set s v).get s = v := by
  cases s <;> simp [get, set]

theorem get_set_ne (h : s' ≠ s) : (l.set s v).get s' = l.get s' := by
  cases s with
  | head k =>
    cases s' with
    | head k' =>
      have hk : k' ≠ k := fun hk => h (by rw [hk])
      simp [get, set, hk]
    | next i' => rfl
  | next i =>
    cases s' with
    | head k' => rfl
    | next i' =>
      have hi : i' ≠ i := fun hi => h (by rw [hi])
      simp [get, set, hi]

def Holds (l : Links κ ι) (k : κ) (xs : List ι) : Prop := Chain l.next (l.head k) xs

/-- Take `i` out of the list at a slot; `none` if the list does not end within `rounds`. -/
def unlink (i : ι) : Nat → Slot κ ι → Links κ ι → Option (Links κ ι)
  | 0, _, _ => none
  | rounds + 1, slot, l =>
    match l.get slot with
    | none => some l
    | some m => if m = i then some (l.set slot (l.next i)) else unlink i rounds (.next m) l

/-- Put `i` in front of the first node with `before`, or at the end. -/
def link (i : ι) (before : ι → Bool) : Nat → Slot κ ι → Links κ ι → Option (Links κ ι)
  | 0, _, _ => none
  | rounds + 1, slot, l =>
    match l.get slot with
    | none => some ((l.set (.next i) none).set slot (some i))
    | some m =>
      if before m then some ((l.set (.next i) (some m)).set slot (some i)) else link i before rounds (.next m) l

end Links

/-- What `link` does to a list. -/
def place {ι : Type} (i : ι) (before : ι → Bool) : List ι → List ι
  | [] => [i]
  | m :: rest => if before m then i :: m :: rest else m :: place i before rest

variable {ι : Type}

theorem place_perm (i : ι) (before : ι → Bool) (xs : List ι) : (place i before xs).Perm (i :: xs) := by
  induction xs with
  | nil => exact .refl _
  | cons m rest ih =>
    rw [place]
    split
    · exact .refl _
    · exact (ih.cons m).trans (List.Perm.swap i m rest)

theorem mem_place {i j : ι} {before : ι → Bool} {xs : List ι} : j ∈ place i before xs ↔ j = i ∨ j ∈ xs := by
  rw [(place_perm i before xs).mem_iff, mem_cons]

/-- Sorted by a key, and placed in front of the first greater one: sorted. -/
theorem pairwise_place {key : ι → Nat} {i : ι} {xs : List ι} (h : xs.Pairwise fun a b => key a ≤ key b) :
    (place i (fun m => key i < key m) xs).Pairwise fun a b => key a ≤ key b := by
  induction xs with
  | nil => exact pairwise_singleton _ i
  | cons m rest ih =>
    obtain ⟨hm, hrest⟩ := pairwise_cons.mp h
    rw [place]
    split
    · next hlt =>
      have hlt : key i < key m := of_decide_eq_true hlt
      refine pairwise_cons.mpr ⟨fun a ha => ?_, h⟩
      rcases mem_cons.mp ha with rfl | ha
      · exact hlt.le
      · exact hlt.le.trans (hm a ha)
    · next hge =>
      have hge : ¬ key i < key m := fun hlt => hge (decide_eq_true hlt)
      refine pairwise_cons.mpr ⟨fun a ha => ?_, ih hrest⟩
      rcases mem_place.mp ha with rfl | ha
      · exact Nat.le_of_not_lt hge
      · exact hm a ha

/-! ### Taking out and putting in -/

namespace Links
variable {κ ι : Type} [DecidableEq κ] [DecidableEq ι] {l : Links κ ι} {xs : List ι} {i : ι}

def Outside (slot : Slot κ ι) (xs : List ι) : Prop := ∀ p ∈ xs, slot ≠ .next p

variable {slot : Slot κ ι}

theorem unlink_spec {rounds : Nat} (hc : Chain l.next (l.get slot) xs) (hout : Outside slot xs)
    (hr : xs.length < rounds) :
    ∃ l', unlink i rounds slot l = some l' ∧ Chain l'.next (l'.get slot) (xs.erase i) ∧
      ∀ s, s ≠ slot → Outside s xs → l'.get s = l.get s := by
  induction xs generalizing slot rounds with
  | nil =>
    obtain ⟨rounds, rfl⟩ : ∃ r, rounds = r + 1 := Nat.exists_eq_succ_of_ne_zero (by omega)
    refine ⟨l, ?_, hc, fun _ _ _ => rfl⟩
    rw [unlink, show l.get slot = none from hc]
  | cons m rest ih =>
    obtain ⟨rounds, rfl⟩ : ∃ r, rounds = r + 1 := Nat.exists_eq_succ_of_ne_zero (by omega)
    have hm : m ∉ rest := (nodup_cons.mp hc.nodup).1
    rw [unlink, hc.1]
    dsimp only
    by_cases hi : m = i
    · subst hi
      refine ⟨_, if_pos rfl, ?_, fun s hs _ => get_set_ne hs⟩
      rw [erase_cons_head, get_set_self]
      exact hc.2.congr fun p hp => get_set_ne fun heq => hout p (mem_cons_of_mem m hp) heq.symm
    · have hnext : Outside (Slot.next m : Slot κ ι) rest := fun p hp heq => hm (by rw [Slot.next.inj heq]; exact hp)
      have htail : Chain l.next (l.get (.next m)) rest := hc.2
      obtain ⟨l', hl', hc', hframe⟩ := ih htail hnext (by simpa using hr)
      refine ⟨l', by rw [if_neg hi, hl'], ?_, fun s hs ho => ?_⟩
      · rw [erase_cons_tail (by simpa using hi)]
        refine ⟨?_, hc'⟩
        rw [hframe slot (hout m mem_cons_self) fun p hp => hout p (mem_cons_of_mem m hp)]
        exact hc.1
      · exact hframe s (ho m mem_cons_self) fun p hp => ho p (mem_cons_of_mem m hp)

theorem link_spec (before : ι → Bool) {rounds : Nat} (hc : Chain l.next (l.get slot) xs)
    (hout : Outside slot (i :: xs)) (hi : i ∉ xs) (hr : xs.length < rounds) :
    ∃ l', link i before rounds slot l = some l' ∧ Chain l'.next (l'.get slot) (place i before xs) ∧
      ∀ s, s ≠ slot → Outside s (i :: xs) → l'.get s = l.get s := by
  have hset {slot : Slot κ ι} (v : Option ι) (s : Slot κ ι) (hs : s ≠ slot) (hsi : s ≠ .next i) :
      ((l.set (.next i) v).set slot (some i)).get s = l.get s := by
    rw [get_set_ne hs, get_set_ne hsi]
  induction xs generalizing slot rounds with
  | nil =>
    obtain ⟨rounds, rfl⟩ : ∃ r, rounds = r + 1 := Nat.exists_eq_succ_of_ne_zero (by omega)
    refine ⟨_, by rw [link, show l.get slot = none from hc], ?_, fun s hs ho => ?_⟩
    · refine ⟨get_set_self, ?_⟩
      show Links.get _ (.next i) = none
      rw [get_set_ne (Ne.symm (hout i mem_cons_self)), get_set_self]
    · exact hset none s hs (ho i mem_cons_self)
  | cons m rest ih =>
    obtain ⟨rounds, rfl⟩ : ∃ r, rounds = r + 1 := Nat.exists_eq_succ_of_ne_zero (by omega)
    have hm : m ∉ rest := (nodup_cons.mp hc.nodup).1
    have him : i ≠ m := fun heq => hi (by rw [heq]; exact mem_cons_self)
    have hirest : i ∉ rest := fun h => hi (mem_cons_of_mem m h)
    rw [link, hc.1, place]
    dsimp only
    by_cases hb : before m = true
    · rw [if_pos hb, if_pos hb]
      refine ⟨_, rfl, ⟨get_set_self, ?_⟩, fun s hs ho => hset (some m) s hs (ho i mem_cons_self)⟩
      have hnext : ((l.set (.next i) (some m)).set slot (some i)).next i = some m := by
        show Links.get _ (.next i) = some m
        rw [get_set_ne (Ne.symm (hout i mem_cons_self)), get_set_self]
      rw [hnext]
      have hold : Chain l.next (some m) (m :: rest) := ⟨rfl, hc.2⟩
      refine hold.congr fun p hp => ?_
      have hp' : p ∈ i :: m :: rest := mem_cons_of_mem i hp
      exact hset (some m) (.next p) (Ne.symm (hout p hp')) fun heq => hi (by rw [← Slot.next.inj heq]; exact hp)
    · rw [if_neg hb, if_neg hb]
      have hnext : Outside (Slot.next m : Slot κ ι) (i :: rest) := by
        intro p hp heq
        rw [← Slot.next.inj heq] at hp
        rcases mem_cons.mp hp with hp | hp
        · exact him hp.symm
        · exact hm hp
      have hsub {s : Slot κ ι} (ho : Outside s (i :: m :: rest)) : Outside s (i :: rest) := by
        intro p hp
        rcases mem_cons.mp hp with rfl | hp
        · exact ho p mem_cons_self
        · exact ho p (mem_cons_of_mem i (mem_cons_of_mem m hp))
      have htail : Chain l.next (l.get (.next m)) rest := hc.2
      obtain ⟨l', hl', hc', hframe⟩ := ih htail hnext hirest (by simpa using hr)
      have hmo {s : Slot κ ι} (ho : Outside s (i :: m :: rest)) : s ≠ .next m :=
        ho m (mem_cons_of_mem i mem_cons_self)
      refine ⟨l', hl', ⟨?_, hc'⟩, fun s _ ho => hframe s (hmo ho) (hsub ho)⟩
      rw [hframe slot (hmo hout) (hsub hout)]
      exact hc.1

omit [DecidableEq κ] [DecidableEq ι] in
theorem Holds.frame {l' : Links κ ι} {k k' : κ} {ys : List ι} (h : l.Holds k' ys) (hk : k' ≠ k)
    (hframe : ∀ s, s ≠ .head k → Outside s xs → l'.get s = l.get s) (hdisj : ∀ j ∈ ys, j ∉ xs) : l'.Holds k' ys := by
  have hhead : l'.head k' = l.head k' :=
    hframe (.head k') (fun heq => hk (Slot.head.inj heq)) fun p _ heq => by cases heq
  rw [Holds, hhead]
  refine Chain.congr h fun j hj => ?_
  exact hframe (.next j) (fun heq => by cases heq) fun p hp heq => hdisj j hj (by rw [Slot.next.inj heq]; exact hp)

end Links

end Qumios.Linked
