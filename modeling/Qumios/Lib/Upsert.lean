import Mathlib

/-! Merging into a list by keys.

Each element of a source changes the element of the list that has its key, or becomes a new one at the end. Where the
keys on either side are pairwise different, the result is known as a whole (`merge_eq`): every element of the list
changed by the one source element for it, if there is one, and behind them those made from the rest. -/
namespace Qumios.Upsert
open List

section

variable {α β κ : Type} [DecidableEq κ] (key : α → κ) (skey : β → κ) (change : α → β → α) (make : β → α)

def upsert (l : List α) (s : β) : List α :=
  match l.findIdx? fun a => key a = skey s with
  | some i => l.modify i fun a => change a s
  | none => l ++ [make s]

def merge (l : List α) (src : List β) : List α := src.foldl (upsert key skey change make) l

def changed (src : List β) (a : α) : α :=
  match src.find? fun s => skey s = key a with
  | some s => change a s
  | none => a

def fresh (l : List α) (src : List β) : List β := src.filter fun s => skey s ∉ l.map key

variable {key skey change make}

theorem changed_cons (s : β) (src : List β) (a : α) :
    changed key skey change (s :: src) a = if skey s = key a then change a s else changed key skey change src a := by
  by_cases h : skey s = key a
  · simp [changed, h]
  · simp [changed, h]

variable {src : List β} {s : β} {l : List α}

theorem changed_of_not_mem {a : α} (h : key a ∉ src.map skey) : changed key skey change src a = a := by
  have hnone : src.find? (fun s => skey s = key a) = none :=
    find?_eq_none.mpr fun s hs hsame => h (of_decide_eq_true hsame ▸ mem_map_of_mem hs)
  rw [changed, hnone]

theorem key_of_find {k : κ} (h : src.find? (fun s => skey s = k) = some s) : skey s = k := by
  simpa using find?_some h

/-- In a list with different keys the first element with a key is the only one. -/
theorem modify_eq_map (hnodup : (l.map key).Nodup) {k : κ} {i : Nat} (hi : l.findIdx? (fun a => key a = k) = some i)
    (f : α → α) : l.modify i f = l.map fun a => if key a = k then f a else a := by
  induction l generalizing i with
  | nil => cases hi
  | cons a rest ih =>
    rw [map_cons, nodup_cons] at hnodup
    rw [findIdx?_cons] at hi
    by_cases ha : key a = k
    · rw [if_pos (decide_eq_true ha)] at hi
      obtain rfl : 0 = i := Option.some.inj hi
      rw [map_cons, if_pos ha, modify_zero_cons]
      have hothers : rest.map (fun b => if key b = k then f b else b) = rest.map id :=
        map_congr_left fun b hb => if_neg fun hb' =>
          hnodup.1 (mem_map.mpr ⟨b, hb, hb'.trans ha.symm⟩)
      rw [hothers, map_id]
    · rw [if_neg (by simpa using ha)] at hi
      obtain ⟨j, hj, rfl⟩ := Option.map_eq_some_iff.mp hi
      rw [map_cons, if_neg ha, modify_succ_cons, ih hnodup.2 hj]

theorem upsert_of_mem (hnodup : (l.map key).Nodup) (hs : skey s ∈ l.map key) :
    upsert key skey change make l s = l.map fun a => if key a = skey s then change a s else a := by
  rw [upsert]
  cases hfind : l.findIdx? fun a => key a = skey s with
  | none =>
    obtain ⟨a, ha, hsame⟩ := mem_map.mp hs
    exact absurd hsame (of_decide_eq_false (findIdx?_eq_none_iff.mp hfind a ha))
  | some i => exact modify_eq_map hnodup hfind _

theorem upsert_of_not_mem (hs : skey s ∉ l.map key) : upsert key skey change make l s = l ++ [make s] := by
  have hnone : (l.findIdx? fun a => key a = skey s) = none :=
    findIdx?_eq_none_iff.mpr fun a ha =>
      decide_eq_false fun hsame => hs (mem_map.mpr ⟨a, ha, hsame⟩)
  rw [upsert, hnone]

variable (hchange : ∀ a s, key a = skey s → key (change a s) = key a) (hmake : ∀ s, key (make s) = skey s)
include hchange hmake

/-- **The merge as a whole**, where keys are pairwise different. -/
theorem merge_eq (hl : (l.map key).Nodup) (hsrc : (src.map skey).Nodup) :
    merge key skey change make l src = l.map (changed key skey change src) ++ (fresh key skey l src).map make := by
  induction src generalizing l with
  | nil =>
    have hsame : l.map (changed key skey change []) = l.map id := map_congr_left fun a _ => rfl
    rw [hsame, map_id]
    exact (append_nil l).symm
  | cons s rest ih =>
    rw [map_cons, nodup_cons] at hsrc
    obtain ⟨hs, hrest⟩ := hsrc
    have hstep : merge key skey change make l (s :: rest) =
        merge key skey change make (upsert key skey change make l s) rest := rfl
    by_cases hmem : skey s ∈ l.map key
    · -- the keys of the list stay as they are, and nothing in the rest has this key
      have hkeys : (l.map fun a => if key a = skey s then change a s else a).map key = l.map key := by
        rw [map_map]
        refine map_congr_left fun a _ => ?_
        by_cases ha : key a = skey s
        · rw [Function.comp_apply, if_pos ha, hchange a s ha]
        · rw [Function.comp_apply, if_neg ha]
      have hboth : (l.map fun a => if key a = skey s then change a s else a).map (changed key skey change rest) =
          l.map (changed key skey change (s :: rest)) := by
        rw [map_map]
        refine map_congr_left fun a _ => ?_
        by_cases ha : key a = skey s
        · rw [Function.comp_apply, if_pos ha, changed_cons, if_pos ha.symm, changed_of_not_mem]
          rwa [hchange a s ha, ha]
        · rw [Function.comp_apply, if_neg ha, changed_cons, if_neg fun h => ha h.symm]
      have hfresh : fresh key skey l (s :: rest) = fresh key skey l rest :=
        filter_cons_of_neg (by simpa using hmem)
      rw [hstep, upsert_of_mem hl hmem, ih (hkeys ▸ hl) hrest, hboth, fresh, hkeys, ← fresh, hfresh]
    · have hkeys : ((l ++ [make s]).map key) = l.map key ++ [skey s] := by
        rw [map_append, map_singleton, hmake]
      have hnodup : ((l ++ [make s]).map key).Nodup := by
        rw [hkeys]
        exact nodup_append.mpr ⟨hl, nodup_singleton _, fun a ha b hb => by
          rw [mem_singleton.mp hb]
          exact fun hsame => hmem (hsame ▸ ha)⟩
      have hold : l.map (changed key skey change rest) = l.map (changed key skey change (s :: rest)) :=
        map_congr_left fun a ha => by
          have hother : skey s ≠ key a := fun hsame => hmem (hsame ▸ mem_map_of_mem ha)
          rw [changed_cons, if_neg hother]
      have hnew : changed key skey change rest (make s) = make s := changed_of_not_mem (by rwa [hmake])
      have hfresh : fresh key skey l (s :: rest) = s :: fresh key skey (l ++ [make s]) rest := by
        rw [fresh, filter_cons_of_pos (by simpa using hmem), fresh, hkeys]
        congr 1
        refine filter_congr fun t ht => ?_
        have hother : skey t ≠ skey s := fun hsame => hs (hsame ▸ mem_map_of_mem ht)
        simp [hother]
      rw [hstep, upsert_of_not_mem hmem, ih hnodup hrest, hfresh, map_append, map_singleton, hold, hnew,
        map_cons, append_assoc]
      rfl

omit hmake in
theorem key_changed (src : List β) (a : α) : key (changed key skey change src a) = key a := by
  rw [changed]
  split
  case h_1 s hfind => exact hchange a s (key_of_find hfind).symm
  case h_2 => rfl

section
variable (hl : (l.map key).Nodup) (hsrc : (src.map skey).Nodup)
include hl hsrc

theorem merge_keys : (merge key skey change make l src).map key = l.map key ++ (fresh key skey l src).map skey := by
  rw [merge_eq hchange hmake hl hsrc, map_append, map_map, map_map]
  congr 1
  · exact map_congr_left fun a _ => key_changed hchange src a
  · exact map_congr_left fun s _ => hmake s

theorem merge_nodup : ((merge key skey change make l src).map key).Nodup := by
  rw [merge_keys hchange hmake hl hsrc]
  refine nodup_append.mpr ⟨hl, hsrc.sublist (filter_sublist.map skey), fun k hk k' hk' hsame => ?_⟩
  obtain ⟨s, hs, rfl⟩ := mem_map.mp hk'
  exact of_decide_eq_true (mem_filter.mp hs).2 (hsame ▸ hk)

/-- The elements that the source does not name stay as they are. -/
theorem merge_others :
    (merge key skey change make l src).filter (fun a => key a ∉ src.map skey) =
      l.filter fun a => key a ∉ src.map skey := by
  have hnew : ((fresh key skey l src).map make).filter (fun a => key a ∉ src.map skey) = [] := by
    refine filter_eq_nil_iff.mpr fun a ha => ?_
    obtain ⟨s, hs, rfl⟩ := mem_map.mp ha
    rw [hmake s]
    simpa using ⟨s, mem_of_mem_filter hs, rfl⟩
  have hold : (l.map (changed key skey change src)).filter (fun a => key a ∉ src.map skey) =
      l.filter fun a => key a ∉ src.map skey := by
    rw [filter_map]
    have hsame : (fun a => decide (key a ∉ src.map skey)) ∘ changed key skey change src =
        fun a => decide (key a ∉ src.map skey) := by
      funext a
      rw [Function.comp_apply, key_changed hchange src a]
    rw [hsame]
    refine (map_congr_left fun a ha => ?_).trans (map_id _)
    exact changed_of_not_mem (of_decide_eq_true (mem_filter.mp ha).2)
  rw [merge_eq hchange hmake hl hsrc, filter_append, hold, hnew, append_nil]

/-- What a merge makes of the element with a key of the source. -/
theorem mem_merge_of_mem {a : α} (ha : a ∈ l) (hs : s ∈ src) (hsame : key a = skey s) :
    change a s ∈ merge key skey change make l src := by
  have hfind : src.find? (fun t => skey t = key a) = some s := by
    cases hfound : src.find? (fun t => skey t = key a) with
    | none => exact absurd (decide_eq_true hsame.symm) (find?_eq_none.mp hfound s hs)
    | some t =>
      have hkey : skey t = skey s := (key_of_find hfound).trans hsame
      exact congrArg some (inj_on_of_nodup_map hsrc (mem_of_find?_eq_some hfound) hs hkey)
  rw [merge_eq hchange hmake hl hsrc]
  refine mem_append_left _ (mem_map.mpr ⟨a, ha, ?_⟩)
  rw [changed, hfind]

theorem mem_merge_of_fresh (hs : s ∈ src) (hfresh : skey s ∉ l.map key) :
    make s ∈ merge key skey change make l src := by
  rw [merge_eq hchange hmake hl hsrc]
  exact mem_append_right _ (mem_map_of_mem (mem_filter.mpr ⟨hs, decide_eq_true hfresh⟩))
end

end

end Qumios.Upsert
