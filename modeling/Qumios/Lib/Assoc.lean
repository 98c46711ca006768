import Mathlib

/-! Lists of bindings as maps.

A list whose elements bind pairwise different keys stands for a map, whatever its
order (`Represents`). The rules say how the map changes with the list: a binding
that is put in front, taken away or replaced, and all those taken away whose keys
satisfy something. -/
namespace Qumios.Assoc
open List

variable {ε κ ν : Type} {key : ε → κ} {val : ε → ν} {es es' : List ε} {e e' : ε} {m m' : κ → Option ν}

/-- The list binds each key once, and the map is what it binds. -/
structure Represents (key : ε → κ) (val : ε → ν) (es : List ε) (m : κ → Option ν) : Prop where
  keys : (es.map key).Nodup
  lookup : ∀ k v, m k = some v ↔ ∃ e ∈ es, key e = k ∧ val e = v

namespace Represents

theorem nil : Represents key val [] fun _ => none := ⟨nodup_nil, by simp⟩

section
variable (h : Represents key val es m)
include h

theorem perm (hp : es.Perm es') : Represents key val es' m := by
  refine ⟨((hp.map key).nodup_iff).mp h.keys, fun k v => ?_⟩
  rw [h.lookup]
  simp only [hp.mem_iff]

theorem eq_none_iff {k : κ} : m k = none ↔ ∀ e ∈ es, key e ≠ k := by
  rw [Option.eq_none_iff_forall_ne_some]
  constructor
  · intro hnone e he hk
    exact hnone (val e) ((h.lookup k (val e)).mpr ⟨e, he, hk, rfl⟩)
  · intro hno v hv
    obtain ⟨e, he, hk, -⟩ := (h.lookup k v).mp hv
    exact hno e he hk

theorem eq_some (he : e ∈ es) : m (key e) = some (val e) :=
  (h.lookup _ _).mpr ⟨e, he, rfl, rfl⟩
end

variable [DecidableEq κ]

theorem cons (h : Represents key val es m) (hfresh : ∀ x ∈ es, key x ≠ key e) :
    Represents key val (e :: es) (Function.update m (key e) (some (val e))) := by
  refine ⟨?_, fun k v => ?_⟩
  · rw [map_cons, nodup_cons]
    refine ⟨fun hmem => ?_, h.keys⟩
    obtain ⟨x, hx, hk⟩ := mem_map.mp hmem
    exact hfresh x hx hk
  · by_cases hk : k = key e
    · subst hk
      rw [Function.update_self]
      constructor
      · intro hv
        exact ⟨e, mem_cons_self, rfl, Option.some.inj hv⟩
      · intro hx
        obtain ⟨x, hx, hkx, rfl⟩ := hx
        rcases mem_cons.mp hx with rfl | hx
        · rfl
        · exact absurd hkx (hfresh x hx)
    · rw [Function.update_of_ne hk, h.lookup]
      constructor
      · intro hx
        obtain ⟨x, hx, hkx, hv⟩ := hx
        exact ⟨x, mem_cons_of_mem e hx, hkx, hv⟩
      · intro hx
        obtain ⟨x, hx, rfl, hv⟩ := hx
        rcases mem_cons.mp hx with rfl | hx
        · exact absurd rfl hk
        · exact ⟨x, hx, rfl, hv⟩

theorem tail (h : Represents key val (e :: es) m) : Represents key val es (Function.update m (key e) none) := by
  have hkeys := h.keys
  rw [map_cons, nodup_cons] at hkeys
  refine ⟨hkeys.2, fun k v => ?_⟩
  by_cases hk : k = key e
  · subst hk
    rw [Function.update_self]
    refine ⟨fun hv => (by cases hv), fun hx => ?_⟩
    obtain ⟨x, hx, hkx, -⟩ := hx
    exact absurd (mem_map.mpr ⟨x, hx, hkx⟩) hkeys.1
  · rw [Function.update_of_ne hk, h.lookup]
    constructor
    · intro hx
      obtain ⟨x, hx, rfl, hv⟩ := hx
      rcases mem_cons.mp hx with rfl | hx
      · exact absurd rfl hk
      · exact ⟨x, hx, rfl, hv⟩
    · intro hx
      obtain ⟨x, hx, hkx, hv⟩ := hx
      exact ⟨x, mem_cons_of_mem e hx, hkx, hv⟩

theorem replace (h : Represents key val (e :: es) m) (hk : key e' = key e) :
    Represents key val (e' :: es) (Function.update m (key e) (some (val e'))) := by
  have hfresh : ∀ x ∈ es, key x ≠ key e' := fun x hx hxe => by
    have hkeys := h.keys
    rw [map_cons, nodup_cons, ← hk] at hkeys
    exact hkeys.1 (mem_map.mpr ⟨x, hx, hxe⟩)
  have hcons := h.tail.cons hfresh
  rwa [hk, Function.update_idem] at hcons

end Represents

end Qumios.Assoc
