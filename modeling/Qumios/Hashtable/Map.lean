import Qumios.Hashtable.Table

/-! The table as a finite map.

A bucket is looked up item by item, so it means the map its first holder of each key
says (`Bucket.get`). `ht_add` and `ht_del` do to that map what they should as long as
no key is added that a chain holds, and no key is deleted that is a prefix of another
one of its bucket, or the other way round (`Plain`). -/
namespace Qumios.Hashtable
open Run List Function

/-! ### Buckets -/

/-- The item holds this key and this value. -/
structure Item.Full (item : Item) (k v : Bytes) : Prop where
  key : item.key = some k
  val : item.val = some v
  size : item.sizeVal = v.length

structure Bucket.Sound (b : Bucket) : Prop where
  root : b.root.key = none ∨ ∃ k v, b.root.Full k v
  chain : ∀ item ∈ b.chain, ∃ k v, item.Full k v
  distinct : (b.items.filterMap Item.key).Nodup

def Bucket.get (b : Bucket) (k : Bytes) : Option Bytes := (b.items.find? (·.holds k)).bind Item.val

section Bucket
variable {b : Bucket} {item : Item} {items : List Item} {k key : Bytes} {heap : Heap}

theorem Item.holds_iff : item.holds k = true ↔ item.key = some k := by
  rw [Item.holds, beq_iff_eq]

theorem Bucket.Sound.full (h : b.Sound) (hmem : item ∈ b.items) (hkey : item.key = some k) : ∃ v, item.Full k v := by
  have hfull : item.key = none ∨ ∃ k v, item.Full k v := by
    rcases mem_cons.mp hmem with rfl | hchain
    · exact h.root
    · exact .inr (h.chain item hchain)
  rcases hfull with hnone | ⟨k', v, hf⟩
  · rw [hnone] at hkey
    cases hkey
  · rw [hf.key] at hkey
    cases hkey
    exact ⟨v, hf⟩

theorem Bucket.Sound.found (h : b.Sound) (hfind : b.items.find? (·.holds k) = some item) : ∃ v, item.Full k v := by
  have hholds : item.holds k = true := by simpa using find?_some hfind
  exact h.full (mem_of_find?_eq_some hfind) (Item.holds_iff.mp hholds)

/-- What is found is copied with its size. -/
theorem Bucket.Sound.copy (h : b.Sound) (k : Bytes) (room : Nat) :
    (match b.items.find? (·.holds k) with
      | none => some none
      | some item => item.copy room) = some ((b.get k).map fun v => (v.take room, v.length)) := by
  cases hfind : b.items.find? (·.holds k) with
  | none => simp [Bucket.get, hfind]
  | some item =>
    obtain ⟨v, hf⟩ := h.found hfind
    have hroom : ¬ v.length < min v.length room := by omega
    have htake : v.take (min v.length room) = v.take room := by
      rw [← take_take]
      exact take_of_length_le (by simp)
    simp [Bucket.get, hfind, Item.copy, hf.val, hf.size, hroom, htake]

/-! ### Adding -/

theorem addLoop_append (val : Bytes) (hmem : ∀ a, heap.mem a = true) (prev : Item)
    (hchain : ∀ item ∈ items, item.key ≠ some key) :
    addLoop heap key val prev items = some (prev, items ++ [⟨some key, some val, val.length⟩], true) := by
  induction items generalizing prev with
  | nil => simp [addLoop, newItem, hmem]
  | cons cur rest ih =>
    have hcur : ¬ cur.holds key = true := fun h => hchain cur mem_cons_self (Item.holds_iff.mp h)
    rw [addLoop, if_neg hcur, ih cur fun item hi => hchain item (mem_cons_of_mem cur hi)]
    rfl

theorem find_none (h : ∀ item ∈ items, item.key ≠ some k) : items.find? (·.holds k) = none := by
  rw [find?_eq_none]
  exact fun item hi hk => h item hi (Item.holds_iff.mp hk)

theorem key_mem {keys : List Item} : k ∈ keys.filterMap Item.key ↔ ∃ item ∈ keys, item.key = some k := by
  rw [mem_filterMap]

theorem Bucket.Sound.add (h : b.Sound) (val : Bytes) (hmem : ∀ a, heap.mem a = true)
    (hchain : ∀ item ∈ b.chain, item.key ≠ some key) :
    ∃ b', b.add heap key val = some (b', true) ∧ b'.Sound ∧ b'.get = Function.update b.get key (some val) := by
  obtain ⟨root, chain⟩ := b
  have hdistinct := h.distinct
  have hout : key ∉ chain.filterMap Item.key := fun hk => by
    obtain ⟨item, hi, hkey⟩ := key_mem.mp hk
    exact hchain item hi hkey
  cases hroot : root.key with
  | none =>
    -- the item in the table is free
    refine ⟨⟨⟨some key, some val, val.length⟩, chain⟩, by simp [Bucket.add, hroot, hmem], ⟨?_, h.chain, ?_⟩, ?_⟩
    · exact .inr ⟨key, val, rfl, rfl, rfl⟩
    · simp only [Bucket.items, filterMap_cons, hroot] at hdistinct
      exact nodup_cons.mpr ⟨hout, hdistinct⟩
    · funext k
      by_cases hk : k = key
      · subst hk
        simp [Bucket.get, Bucket.items, Item.holds]
      · rw [update_of_ne hk]
        simp [Bucket.get, Bucket.items, Item.holds, hroot, Ne.symm hk]
  | some k0 =>
    by_cases hk0 : k0 = key
    · -- it holds the key
      subst hk0
      refine ⟨⟨⟨some k0, some val, val.length⟩, chain⟩, by simp [Bucket.add, Item.holds, hroot, hmem], ⟨?_, h.chain, ?_⟩, ?_⟩
      · exact .inr ⟨k0, val, rfl, rfl, rfl⟩
      · simpa [Bucket.items, hroot] using hdistinct
      · funext k
        by_cases hk : k = k0
        · subst hk
          simp [Bucket.get, Bucket.items, Item.holds]
        · rw [update_of_ne hk]
          simp [Bucket.get, Bucket.items, Item.holds, hroot, Ne.symm hk]
    · -- a new item at the end of the chain
      have hloop := addLoop_append val hmem root hchain
      have hnot (item : Item) (hi : item ∈ root :: chain) : item.key ≠ some key := by
        rcases mem_cons.mp hi with rfl | hi
        · rw [hroot]
          exact fun heq => hk0 (Option.some.inj heq)
        · exact hchain item hi
      refine ⟨⟨root, chain ++ [⟨some key, some val, val.length⟩]⟩, ?_, ⟨h.root, fun item hi => ?_, ?_⟩, ?_⟩
      · simp [Bucket.add, Item.holds, hroot, hk0, hloop]
      · rcases mem_append.mp hi with hi | hi
        · exact h.chain item hi
        · cases mem_singleton.mp hi
          exact ⟨key, val, rfl, rfl, rfl⟩
      · rw [Bucket.items, ← cons_append, filterMap_append]
        refine nodup_append.mpr ⟨hdistinct, by simp, fun k hk k' hk' => ?_⟩
        obtain ⟨item, hi, hkey⟩ := key_mem.mp hk
        simp only [filterMap_cons, filterMap_nil, mem_singleton] at hk'
        subst hk'
        exact fun heq => hnot item hi (by rw [hkey, heq])
      · funext k
        rw [Bucket.get, Bucket.items, ← cons_append, find?_append]
        by_cases hk : k = key
        · subst hk
          rw [find_none hnot, update_self]
          simp [Item.holds]
        · rw [update_of_ne hk]
          simp [Bucket.get, Bucket.items, Item.holds, Ne.symm hk]

/-! ### Deleting -/

def Apart (a b : Bytes) : Prop := ¬ a <+: b ∧ ¬ b <+: a

instance (a b : Bytes) : Decidable (Apart a b) := inferInstanceAs (Decidable (_ ∧ _))

theorem memcmpEq_self (key : Bytes) : memcmpEq key key = some true := by
  simp [memcmpEq]

theorem memcmpEq_apart {a : Bytes} (h : Apart a key) : memcmpEq a key = some false := by
  have hshort : ¬ (a.length < key.length ∧ a = key.take a.length) := by
    intro hs
    exact h.1 (by rw [hs.2]; exact take_prefix _ _)
  have hlong : ¬ a.take key.length = key := by
    intro hl
    exact h.2 (by rw [← hl]; exact take_prefix _ _)
  simp [memcmpEq, hshort, hlong]

theorem hit_eq (hfull : item.key = none ∨ ∃ k v, item.Full k v) (hapart : ∀ k, item.key = some k → k ≠ key → Apart k key) :
    item.hit (some key) = some (item.holds key) := by
  rcases hfull with hnone | ⟨k, v, hf⟩
  · simp [Item.hit, Item.holds, hnone]
  · by_cases hk : k = key
    · subst hk
      simp [Item.hit, Item.holds, hf.key, hf.val, memcmpEq_self]
    · simp [Item.hit, Item.holds, hf.key, hf.val, memcmpEq_apart (hapart k hf.key hk), hk]

theorem delChain_key (hfull : ∀ item ∈ items, ∃ k v, item.Full k v)
    (hapart : ∀ item ∈ items, ∀ k, item.key = some k → k ≠ key → Apart k key) :
    delChain (some key) items = some (items.eraseP (·.holds key), items.any (·.holds key)) := by
  induction items with
  | nil => rfl
  | cons item rest ih =>
    have hrest := ih (fun x hx => hfull x (mem_cons_of_mem item hx)) fun x hx => hapart x (mem_cons_of_mem item hx)
    have hhit := hit_eq (.inr (hfull item mem_cons_self)) (hapart item mem_cons_self)
    rw [delChain, hhit]
    cases hh : item.holds key with
    | true => simp [hh]
    | false => simp [hh, hrest]

/-- A key that was deleted is not found, and the others are. -/
theorem find_eraseP (hnodup : (items.filterMap Item.key).Nodup) (k : Bytes) :
    (items.eraseP (·.holds key)).find? (·.holds k) = if k = key then none else items.find? (·.holds k) := by
  induction items with
  | nil => simp
  | cons item rest ih =>
    cases hh : item.holds key with
    | true =>
      rw [eraseP_cons_of_pos (p := fun x : Item => x.holds key) hh]
      have hkey := Item.holds_iff.mp hh
      by_cases hk : k = key
      · subst hk
        rw [if_pos rfl]
        simp only [filterMap_cons, hkey] at hnodup
        exact find_none fun x hx hxk => (nodup_cons.mp hnodup).1 (key_mem.mpr ⟨x, hx, hxk⟩)
      · have hnot : item.holds k = false := by simp [Item.holds, hkey, Ne.symm hk]
        rw [if_neg hk, find?_cons_of_neg (by simp [hnot])]
    | false =>
      have hrest : (rest.filterMap Item.key).Nodup := by
        cases hkey : item.key with
        | none => simpa [hkey] using hnodup
        | some k' =>
          simp only [filterMap_cons, hkey] at hnodup
          exact (nodup_cons.mp hnodup).2
      rw [eraseP_cons_of_neg (by simp [hh])]
      cases hk : item.holds k with
      | true =>
        have hne : k ≠ key := by
          intro heq
          rw [heq, hh] at hk
          cases hk
        rw [if_neg hne]
        simp [hk]
      | false => rw [find?_cons_of_neg (by simp [hk]), find?_cons_of_neg (by simp [hk]), ih hrest]

theorem Bucket.Sound.del (h : b.Sound) (hapart : ∀ item ∈ b.items, ∀ k, item.key = some k → k ≠ key → Apart k key) :
    ∃ b' code, delNode (some key) b = some (b', code) ∧ b'.Sound ∧ b'.get = Function.update b.get key none := by
  obtain ⟨root, chain⟩ := b
  have hdistinct := h.distinct
  have hhit : root.hit (some key) = some (root.holds key) := hit_eq h.root (hapart root mem_cons_self)
  cases hh : root.holds key with
  | true =>
    have hkey := Item.holds_iff.mp hh
    simp only [Bucket.items, filterMap_cons, hkey] at hdistinct
    refine ⟨⟨{ root with key := none, val := none }, chain⟩, true, by simp [delNode, hhit, hh], ⟨.inl rfl, h.chain, ?_⟩, ?_⟩
    · exact (nodup_cons.mp hdistinct).2
    · funext k
      by_cases hk : k = key
      · subst hk
        rw [update_self, Bucket.get, find_none, Option.bind_none]
        intro item hi hkey'
        rcases mem_cons.mp hi with rfl | hi
        · cases hkey'
        · exact (nodup_cons.mp hdistinct).1 (key_mem.mpr ⟨item, hi, hkey'⟩)
      · rw [update_of_ne hk]
        simp [Bucket.get, Bucket.items, Item.holds, hkey, Ne.symm hk]
  | false =>
    have hdel := delChain_key h.chain fun item hi => hapart item (mem_cons_of_mem root hi)
    have hitems : root :: chain.eraseP (·.holds key) = (root :: chain).eraseP (·.holds key) :=
      (eraseP_cons_of_neg (by simp [hh])).symm
    refine ⟨⟨root, chain.eraseP (·.holds key)⟩, chain.any (·.holds key), by simp [delNode, hhit, hh, hdel],
      ⟨h.root, fun item hi => h.chain item (mem_of_mem_eraseP hi), ?_⟩, ?_⟩
    · rw [Bucket.items, hitems]
      exact hdistinct.sublist (List.Sublist.filterMap Item.key eraseP_sublist)
    · funext k
      have hnodup : ((root :: chain).filterMap Item.key).Nodup := hdistinct
      rw [Bucket.get, Bucket.items, hitems, find_eraseP hnodup]
      by_cases hk : k = key
      · rw [if_pos hk, hk, update_self]
        rfl
      · rw [if_neg hk, update_of_ne hk]
        rfl

/-! ### Clearing -/

theorem delChain_none (hfull : ∀ item ∈ items, ∃ k v, item.Full k v) : ∃ code, delChain none items = some ([], code) := by
  induction items with
  | nil => exact ⟨false, rfl⟩
  | cons item rest ih =>
    obtain ⟨code, hrest⟩ := ih fun x hx => hfull x (mem_cons_of_mem item hx)
    obtain ⟨k, v, hf⟩ := hfull item mem_cons_self
    exact ⟨true, by simp [delChain, Item.hit, hf.key, hf.val, hrest]⟩

theorem Bucket.Sound.clear (h : b.Sound) :
    ∃ b' code, delNode none b = some (b', code) ∧ b'.Sound ∧ ∀ k, b'.get k = none := by
  obtain ⟨code, hchain⟩ := delChain_none h.chain
  have hempty {root : Item} (hroot : root.key = none) :
      (⟨root, []⟩ : Bucket).Sound ∧ ∀ k, (⟨root, []⟩ : Bucket).get k = none := by
    refine ⟨⟨.inl hroot, by simp, by simp [Bucket.items, hroot]⟩, fun k => ?_⟩
    simp [Bucket.get, Bucket.items, Item.holds, hroot]
  rcases h.root with hnone | ⟨k, v, hf⟩
  · exact ⟨⟨b.root, []⟩, code, by simp [delNode, Item.hit, hnone, hchain], hempty hnone⟩
  · exact ⟨⟨{ b.root with key := none, val := none }, []⟩, true, by simp [delNode, Item.hit, hf.key, hf.val, hchain], hempty rfl⟩

end Bucket

/-! ### Tables -/

def Table.get (t : Table) (k : Bytes) : Option Bytes := (t.bucket k).get k

/-- A table with sound buckets that means a map. -/
structure Means (t : Table) (m : Bytes → Option Bytes) : Prop where
  size : 0 < t.length
  sound : ∀ b ∈ t, b.Sound
  empty : m [] = none
  get : ∀ k, k ≠ [] → t.get k = m k

section Table
variable {t : Table} {m : Bytes → Option Bytes} {key : Bytes} {heap : Heap}

section
variable (h : Means t m)
include h

theorem Means.at (key : Bytes) : t[position t key]? = some (t.bucket key) := by
  have hlt : position t key < t.length := Nat.mod_lt _ h.size
  rw [Table.bucket, getD_eq_getElem _ _ hlt, getElem?_eq_getElem hlt]

theorem Means.bucket_sound (key : Bytes) : (t.bucket key).Sound :=
  h.sound _ (mem_of_getElem? (h.at key))

/-- One bucket with another in its place, for the key it was looked up for. -/
theorem Means.set {b' : Bucket} {new : Option Bytes} (hkey : key ≠ []) (hb : b'.Sound)
    (hget : b'.get = Function.update (t.bucket key).get key new) :
    Means (t.set (position t key) b') (Function.update m key new) := by
  have hlt : position t key < t.length := Nat.mod_lt _ h.size
  have hpos (k : Bytes) : position (t.set (position t key) b') k = position t k := by rw [position, length_set]; rfl
  refine ⟨by rw [length_set]; exact h.size, fun b hmem => ?_, ?_, fun k hk => ?_⟩
  · rcases mem_or_eq_of_mem_set hmem with hmem | rfl
    · exact h.sound b hmem
    · exact hb
  · rw [update_of_ne (Ne.symm hkey)]
    exact h.empty
  · have hold := h.get k hk
    rw [Table.get, Table.bucket, hpos]
    by_cases hsame : position t k = position t key
    · rw [hsame, getD_eq_getElem?_getD, getElem?_set_self hlt, Option.getD_some, hget]
      by_cases hkk : k = key
      · rw [hkk, update_self, update_self]
      · rw [update_of_ne hkk, update_of_ne hkk, Table.bucket, ← hsame]
        exact hold
    · have hkk : k ≠ key := fun heq => hsame (by rw [heq])
      rw [update_of_ne hkk, getD_eq_getElem?_getD, getElem?_set_ne (Ne.symm hsame),
        ← getD_eq_getElem?_getD]
      exact hold

theorem Means.find (key : Bytes) (room : Nat) :
    htFind t key room = some ((m key).map fun v => (v.take room, v.length)) := by
  rw [htFind]
  by_cases hkey : key = []
  · rw [if_pos hkey, hkey, h.empty]
    rfl
  · rw [if_neg hkey, ← h.get key hkey]
    exact (h.bucket_sound key).copy key room

theorem Means.add (val : Bytes) (hmem : ∀ a, heap.mem a = true)
    (hchain : ∀ item ∈ (t.bucket key).chain, item.key ≠ some key) :
    ∃ t' ok, htAdd heap t key val = some (t', ok) ∧
      Means t' (if key = [] ∨ val = [] then m else Function.update m key (some val)) := by
  rw [htAdd]
  by_cases hparam : key = [] ∨ val = []
  · rw [if_pos hparam, if_pos hparam]
    exact ⟨t, false, rfl, h⟩
  · obtain ⟨b', hadd, hb, hget⟩ := (h.bucket_sound key).add val hmem hchain
    rw [if_neg hparam, if_neg hparam, hadd]
    exact ⟨_, true, rfl, h.set (fun hk => hparam (.inl hk)) hb hget⟩

theorem Means.del (hapart : ∀ item ∈ (t.bucket key).items, ∀ k, item.key = some k → k ≠ key → Apart k key) :
    ∃ t' ok, htDel t key = some (t', ok) ∧ Means t' (Function.update m key none) := by
  rw [htDel]
  by_cases hkey : key = []
  · refine ⟨t, false, if_pos hkey, ?_⟩
    have hsame : Function.update m key none = m := by rw [hkey, ← h.empty, update_eq_self]
    rw [hsame]
    exact h
  · obtain ⟨b', ok, hdel, hb, hget⟩ := (h.bucket_sound key).del hapart
    rw [if_neg hkey, hdel]
    exact ⟨_, ok, rfl, h.set hkey hb hget⟩
end

theorem htClear_spec (h : ∀ b ∈ t, b.Sound) :
    ∃ t', htClear t = some t' ∧ t'.length = t.length ∧ ∀ b ∈ t', b.Sound ∧ ∀ k, b.get k = none := by
  induction t with
  | nil => exact ⟨[], rfl, rfl, fun b hb => (by cases hb)⟩
  | cons b rest ih =>
    obtain ⟨b', ok, hclear, hb'⟩ := (h b mem_cons_self).clear
    obtain ⟨t', hrest, hlen, hall⟩ := ih fun x hx => h x (mem_cons_of_mem b hx)
    refine ⟨b' :: t', ?_, by simp [hlen], fun x hx => ?_⟩
    · rw [htClear] at hrest
      simp [htClear, mapM_cons, hclear, hrest]
    · rcases mem_cons.mp hx with rfl | hx
      · exact hb'
      · exact hall x hx

theorem Means.clear (h : Means t m) : ∃ t', htClear t = some t' ∧ Means t' fun _ => none := by
  obtain ⟨t', hclear, hlen, hall⟩ := htClear_spec h.sound
  refine ⟨t', hclear, by rw [hlen]; exact h.size, fun b hb => (hall b hb).1, rfl, fun k _ => ?_⟩
  have hlt : position t' k < t'.length := Nat.mod_lt _ (by rw [hlen]; exact h.size)
  rw [Table.get, Table.bucket, getD_eq_getElem _ _ hlt]
  exact (hall _ (getElem_mem hlt)).2 k

end Table

/-! ### Runs -/

/-- What a call is meant to do: an add binds its key, unless the key or the value is empty. -/
def Event.apply (m : Bytes → Option Bytes) : Event → Bytes → Option Bytes
  | .add key val => if key = [] ∨ val = [] then m else Function.update m key (some val)
  | .find _ _ => m
  | .del key => Function.update m key none
  | .clear => fun _ => none

def replay (trace : List (Event × Output)) : Bytes → Option Bytes :=
  trace.foldl (fun m x => x.1.apply m) fun _ => none

/-- Every find of a run answers with the last value added for its key and not deleted since:
as much of it as there is room for, and its size. -/
def Answers (trace : List (Event × Output)) : Prop :=
  ∀ pre key room o post, trace = pre ++ (.find key room, o) :: post →
    o = .found ((replay pre key).map fun v => (v.take room, v.length))

/-- No key is added that a chain holds, and none deleted that is a prefix of another key in
its bucket, or has one as a prefix. -/
def Plain (t : Table) : Event → Prop
  | .add key _ => ∀ item ∈ (t.bucket key).chain, item.key ≠ some key
  | .del key => ∀ item ∈ (t.bucket key).items, ∀ k ∈ item.key, k ≠ key → Apart k key
  | _ => True

instance (t : Table) : ∀ e : Event, Decidable (Plain t e)
  | .add _ _ => inferInstanceAs (Decidable (∀ _ ∈ _, _))
  | .find _ _ => inferInstanceAs (Decidable True)
  | .del _ => inferInstanceAs (Decidable (∀ _ ∈ _, _))
  | .clear => inferInstanceAs (Decidable True)

/-- What a run keeps. -/
structure Follows (past : List (Event × Output)) (t : Table) : Prop where
  means : Means t (replay past)
  answers : Answers past

section Step
variable {heap : Heap} {t t' : Table} {e : Event} {o : Output} {past : List (Event × Output)} {m : Bytes → Option Bytes}

/-- One call: it returns, the map is kept, and a find answers from it. -/
theorem Means.step (h : Means t m) (hmem : ∀ a, heap.mem a = true) (hp : Plain t e) :
    ∃ t' o, step heap t e = some (t', o) ∧ Means t' (e.apply m) ∧
      ∀ key room, e = .find key room → o = .found ((m key).map fun v => (v.take room, v.length)) := by
  cases e with
  | add key val =>
    obtain ⟨t', ok, hadd, hmeans⟩ := h.add val hmem hp
    exact ⟨t', .code ok, by rw [step, hadd]; rfl, hmeans, fun _ _ he => by cases he⟩
  | find key room =>
    refine ⟨t, _, by rw [step, h.find key room]; rfl, h, fun key' room' he => ?_⟩
    cases he
    rfl
  | del key =>
    obtain ⟨t', ok, hdel, hmeans⟩ := h.del hp
    exact ⟨t', .code ok, by rw [step, hdel]; rfl, hmeans, fun _ _ he => by cases he⟩
  | clear =>
    obtain ⟨t', hclear, hmeans⟩ := h.clear
    exact ⟨t', .code true, by rw [step, hclear]; rfl, hmeans, fun _ _ he => by cases he⟩

theorem answers_snoc (h : Answers past)
    (ho : ∀ key room, e = .find key room → o = .found ((replay past key).map fun v => (v.take room, v.length))) :
    Answers (past ++ [(e, o)]) := by
  intro pre key room o' post hsplit
  obtain ⟨rfl, hx, rfl⟩ | ⟨rest, rfl, hrest⟩ := split_snoc hsplit
  · cases hx
    exact ho key room rfl
  · exact h pre key room o' rest hrest

theorem Follows.step (h : Follows past t) (hmem : ∀ a, heap.mem a = true) (hp : Plain t e) :
    ∃ t' o, (machine heap).step t e = some (t', o) ∧ Follows (past ++ [(e, o)]) t' := by
  obtain ⟨t', o, hstep, hmeans, hfind⟩ := h.means.step hmem hp
  refine ⟨t', o, hstep, ?_, answers_snoc h.answers hfind⟩
  rw [replay, foldl_append]
  exact hmeans

end Step

theorem htInit_means {maxCount : Nat} (hcount : 0 < maxCount) : Means (htInit maxCount) fun _ => none := by
  have hall (b : Bucket) (hb : b ∈ htInit maxCount) : b = {} := eq_of_mem_replicate hb
  have hempty : ({} : Bucket).Sound := ⟨.inl rfl, by simp, by simp [Bucket.items]⟩
  have hlen : (htInit maxCount).length = maxCount := length_replicate
  refine ⟨by rw [hlen]; exact hcount, fun b hb => by rw [hall b hb]; exact hempty, rfl, fun k _ => ?_⟩
  have hlt : position (htInit maxCount) k < (htInit maxCount).length := Nat.mod_lt _ (by rw [hlen]; exact hcount)
  rw [Table.get, Table.bucket, getD_eq_getElem _ _ hlt, hall _ (getElem_mem hlt)]
  rfl

/-- **The table is a finite map.** For every size and every sequence of calls on steps that
are `Plain`, with no allocation failing: every call returns, and every find answers with
what the replay of the calls in front of it says, in which every add of a key and a value binds. -/
theorem table_refines_map (maxCount : Nat) (heap : Heap) (events : List Event) (hcount : 0 < maxCount)
    (hmem : ∀ a, heap.mem a = true) (hp : (machine heap).Meets Plain (htInit maxCount) events) :
    ∃ t trace, (machine heap).run (htInit maxCount) events = some (t, trace) ∧ Answers trace := by
  have hinit : Follows [] (htInit maxCount) := by
    refine ⟨htInit_means hcount, fun pre key room o post hsplit => ?_⟩
    simp at hsplit
  obtain ⟨t, trace, hrun, hend⟩ := (machine heap).run_total Plain Follows (fun _ _ _ h hc => h.step hmem hc) hinit hp
  exact ⟨t, trace, hrun, hend.answers⟩

def collision : List Event := [.add [97] [1], .add [98] [2, 3], .del [97], .find [98] 8]

theorem table_refines_map_collision :
    ∃ t trace, (machine {}).run (htInit 1) collision = some (t, trace) ∧ Answers trace :=
  table_refines_map 1 {} collision (by decide) (fun _ => rfl) (by decide +kernel)

def addedAgain : List (Event × Output) :=
  [(.add [97] [1], .code true), (.add [98] [2], .code true), (.add [98] [3], .code true)]

/-- The value goes to the key in front of it. -/
theorem add_overwrites_neighbour :
    ∃ (maxCount : Nat) (heap : Heap) (events : List Event) (t : Table) (trace : List (Event × Output)), 0 < maxCount ∧
      (∀ a, heap.mem a = true) ∧ (machine heap).run (htInit maxCount) events = some (t, trace) ∧ ¬ Answers trace := by
  have hrun : ((machine {}).run (htInit 1) (addedAgain.map Prod.fst ++ [.find [97] 8])).map Prod.snd =
      some (addedAgain ++ [(.find [97] 8, .found (some ([3], 1)))]) := by decide +kernel
  obtain ⟨⟨t, trace⟩, hr, htrace⟩ := Option.map_eq_some_iff.mp hrun
  have hwrong (h : Answers trace) : Output.found (some ([3], 1)) = .found (some ([1], 1)) :=
    h addedAgain [97] 8 _ [] htrace
  exact ⟨1, {}, _, t, trace, by decide, fun _ => rfl, hr, fun h => absurd (hwrong h) (by decide)⟩

end Qumios.Hashtable
