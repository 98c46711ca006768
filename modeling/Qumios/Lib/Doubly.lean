import Qumios.Lib.Links

/-! Doubly linked lists: nodes that carry a link in each direction.

`Doubly` is said of a stretch of nodes with what stands before and behind it, so that a
list can be cut at any node and put together again (`Doubly.append`). It says the same read
from behind (`Doubly.symm`): what is proved of one end holds of the other. -/
namespace Qumios.Linked
open List Function

/-- Each node points back at the one before it and on at the one behind it; `p` stands before the
first, `q` behind the last. -/
def Doubly {ι : Type} (next prev : ι → Option ι) : Option ι → List ι → Option ι → Prop
  | _, [], _ => True
  | p, i :: rest, q => prev i = p ∧ next i = rest.head?.or q ∧ Doubly next prev (some i) rest q

namespace Doubly
variable {ι : Type} {next prev next' prev' : ι → Option ι} {p q : Option ι} {xs ys : List ι}

theorem append : Doubly next prev p (xs ++ ys) q ↔
    Doubly next prev p xs (ys.head?.or q) ∧ Doubly next prev (xs.getLast?.or p) ys q := by
  induction xs generalizing p with
  | nil => simp [Doubly]
  | cons i rest ih =>
    have hlast : (i :: rest).getLast?.or p = rest.getLast?.or (some i) := by
      rw [getLast?_cons]
      cases rest.getLast? <;> rfl
    simp only [cons_append, Doubly, ih, hlast, head?_append, Option.or_assoc, and_assoc]

theorem congr (h : Doubly next prev p xs q) (hnext : ∀ i ∈ xs, next' i = next i)
    (hprev : ∀ i ∈ xs, prev' i = prev i) : Doubly next' prev' p xs q := by
  induction xs generalizing p with
  | nil => trivial
  | cons i rest ih =>
    obtain ⟨hp, hq, hrest⟩ := h
    refine ⟨(hprev i mem_cons_self).trans hp, (hnext i mem_cons_self).trans hq, ?_⟩
    exact ih hrest (fun j hj => hnext j (mem_cons_of_mem i hj)) fun j hj => hprev j (mem_cons_of_mem i hj)

theorem symm (h : Doubly next prev p xs q) : Doubly prev next q xs.reverse p := by
  induction xs generalizing p with
  | nil => trivial
  | cons i rest ih =>
    obtain ⟨hp, hq, hrest⟩ := h
    rw [reverse_cons, append]
    refine ⟨ih hrest, ?_, hp, trivial⟩
    rw [hq, getLast?_reverse]

theorem chain (h : Doubly next prev p xs none) : Chain next xs.head? xs := by
  induction xs generalizing p with
  | nil => rfl
  | cons i rest ih =>
    obtain ⟨-, hq, hrest⟩ := h
    refine ⟨rfl, ?_⟩
    rw [hq, Option.or_none]
    exact ih hrest

end Doubly

def setAt {ι : Type} [DecidableEq ι] (f : ι → Option ι) : Option ι → Option ι → ι → Option ι
  | none, _ => f
  | some i, v => Function.update f i v

section SetAt
variable {ι : Type} [DecidableEq ι] {next prev : ι → Option ι} {p q : Option ι} {xs : List ι}

theorem setAt_ne {f : ι → Option ι} {o v : Option ι} {j : ι} (h : o ≠ some j) : setAt f o v j = f j := by
  cases o with
  | none => rfl
  | some i => exact update_of_ne (fun heq => h (congrArg some heq.symm)) v f

section
variable (h : Doubly next prev p xs q) (hnodup : xs.Nodup)
include h hnodup

theorem Doubly.setLast (q' : Option ι) : Doubly (setAt next xs.getLast? q') prev p xs q' := by
  rcases eq_nil_or_concat' xs with rfl | ⟨front, t, rfl⟩
  · trivial
  · rw [getLast?_concat]
    obtain ⟨hfront, hprev, -, -⟩ := append.mp h
    have ht : t ∉ front := fun ht => (nodup_append.mp hnodup).2.2 t ht t (by simp) rfl
    refine append.mpr ⟨?_, hprev, update_self .., trivial⟩
    exact hfront.congr (fun i hi => update_of_ne (ne_of_mem_of_not_mem hi ht) ..) fun _ _ => rfl

theorem Doubly.setFirst (p' : Option ι) : Doubly next (setAt prev xs.head? p') p' xs q := by
  have hback := (h.symm.setLast (nodup_reverse.mpr hnodup) p').symm
  rwa [reverse_reverse, getLast?_reverse] at hback

/-- **Putting a node behind the last.** -/
theorem Doubly.snoc {i : ι} (hi : i ∉ xs) :
    Doubly (setAt (Function.update next i q) xs.getLast? (some i)) (Function.update prev i (xs.getLast?.or p))
      p (xs ++ [i]) q := by
  have hold (f : ι → Option ι) (v : Option ι) (j : ι) (hj : j ∈ xs) : Function.update f i v j = f j :=
    update_of_ne (ne_of_mem_of_not_mem hj hi) ..
  have hlast : xs.getLast? ≠ some i := fun hlast => hi (mem_of_mem_getLast? hlast)
  refine append.mpr ⟨?_, update_self .., ?_, trivial⟩
  · exact (h.congr (hold next q) (hold prev _)).setLast hnodup (some i)
  · rw [setAt_ne hlast]
    exact update_self ..

end

/-- **Taking a node out**: its neighbours are pointed at each other. -/
theorem Doubly.unlink {a b : List ι} {i : ι} (h : Doubly next prev p (a ++ i :: b) q)
    (hnodup : (a ++ i :: b).Nodup) :
    Doubly (setAt next a.getLast? (b.head?.or q)) (setAt prev b.head? (a.getLast?.or p)) p (a ++ b) q := by
  obtain ⟨ha, -, -, hb⟩ := append.mp h
  obtain ⟨hna, hnb, hdisj⟩ := nodup_append.mp hnodup
  have hsep {j : ι} (hja : j ∈ a) (hjb : j ∈ b) : False := hdisj j hja j (mem_cons_of_mem i hjb) rfl
  refine append.mpr ⟨?_, ?_⟩
  · refine (ha.setLast hna _).congr (fun _ _ => rfl) fun j hj => setAt_ne fun hhead => ?_
    exact hsep hj (mem_of_mem_head? hhead)
  · refine (hb.setFirst (nodup_cons.mp hnb).2 _).congr (fun j hj => setAt_ne fun hlast => ?_) fun _ _ => rfl
    exact hsep (mem_of_mem_getLast? hlast) hj

end SetAt

end Qumios.Linked
