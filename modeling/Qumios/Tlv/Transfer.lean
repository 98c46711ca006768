import Qumios.Lib.Bindings
import Qumios.Tlv.Contexts

/-! What `qm_tlv_merge` and `qm_tlv_divide` move from one context to another.

A context binds tags to blocks, in order. A merge puts a binding for every block of the
source, made of the block it finds in the destination, and so is a union in which the source
wins; a division puts one for every block it selects, and is meant to do so even if the
destination has the tag.

Neither is that for all contexts. The look-up of a merge cuts the tag (`Tlv.Contexts`), a
block without a value stops a merge that finds its tag with one, a type that changes marks
the block updated, and only builds with DTTV copy the type at all. A block found under what is
left of its tag gives its place away for good, so a merge that succeeds in the right order found
every block (`mergeLoop_found`). A division does not look
up the tag, and does not look at what `qm_tlv_block_add` answers: a block whose tag the
destination has stays behind, without its flag. -/
namespace Qumios.Tlv
open Wire List Function

/-! ### Contexts as bindings -/

def Item.tag (it : Item) : Nat := it.block.tag

def Ctx.entries (c : Ctx) : List (Nat × Item) := keyed Item.tag c.items

def Ctx.get (c : Ctx) (tag : Nat) : Option Item := c.entries.lookup tag

theorem Ctx.keys_entries (c : Ctx) : c.entries.map Prod.fst = c.tags := keys_keyed _ _

theorem Ctx.get_eq_none {c : Ctx} {tag : Nat} : c.get tag = none ↔ tag ∉ c.tags := by
  rw [Ctx.get, lookup_eq_none_iff_notMem, Ctx.keys_entries]

/-! ### The type -/

def Config.typed (cfg : Config) : Bool := cfg.dttv.isSome || cfg.ttlv.isSome

/-- `IS_FORCE_UPDATE`, in the builds that look at it. -/
def Config.forced (cfg : Config) (type : UInt8) : Bool :=
  cfg.dttv.isSome && cfg.dttvForceUpdate && type &&& 0x80 ≠ 0

def Config.typeId (cfg : Config) (type : UInt8) : UInt8 :=
  if cfg.dttv.isSome && cfg.dttvForceUpdate then realTypeId type else type

theorem realTypeId_of_unmarked {type : UInt8} (h : type &&& 0x80 = 0) : realTypeId type = type := by
  revert type
  decide +kernel

/-- A block has what another one has: type, length and bytes. -/
structure Block.Same (cfg : Config) (b o : Block) : Prop where
  type : cfg.typed → b.type = cfg.typeId o.type
  len : b.len = o.len
  value : b.value = o.value

/-! ### One copy -/

section Copies
variable {cfg : Config} {ptr : Nat} {c : Ctx} {d o : Item}

def Config.CopiesTypes (cfg : Config) : Prop := cfg.dttv.isSome ∨ cfg.ttlv = none

theorem Config.CopiesTypes.dttv (h : cfg.CopiesTypes) (htyped : cfg.typed) : cfg.dttv.isSome := by
  rcases h with h | h
  · exact h
  · rw [Config.typed, h, Option.isSome_none, Bool.or_false] at htyped
    exact htyped

theorem copyHeader_type (h : cfg.dttv.isSome) (d o : Block) : (copyHeader cfg d o).type = cfg.typeId o.type := by
  have hcopied : ∀ b : Block, (if cfg.dttv.isSome && b.type ≠ o.type then { b with type := o.type, update := true }
      else b).type = o.type := by
    intro b
    by_cases hb : b.type = o.type <;> simp [h, hb]
  by_cases hmark : o.type &&& 0x80 = 0
  · simp only [copyHeader, hmark, ne_eq, not_true_eq_false, decide_false, Bool.and_false, Bool.false_eq_true, if_false]
    rw [hcopied, Config.typeId, realTypeId_of_unmarked hmark, ite_self]
  · by_cases hforce : cfg.dttvForceUpdate
    · simp [copyHeader, Config.typeId, h, hforce, hmark]
    · simp only [copyHeader, hforce, Bool.and_false, Bool.false_and, Bool.false_eq_true, if_false]
      rw [hcopied, Config.typeId, if_neg (by simp [hforce])]

theorem copyHeader_value (d o : Block) : (copyHeader cfg d o).value = d.value := by
  unfold copyHeader
  dsimp only
  repeat' split
  all_goals rfl

theorem copyHeader_update (d o : Block) : (copyHeader cfg d o).update =
    (d.update || decide (d.tag ≠ o.tag) || (cfg.dttv.isSome && decide (d.type ≠ o.type)) || cfg.forced o.type) := by
  unfold copyHeader Config.forced
  by_cases htag : d.tag = o.tag <;> by_cases htype : d.type = o.type <;>
    by_cases hmark : o.type &&& 0x80 = 0 <;> cases cfg.dttv.isSome <;> cases cfg.dttvForceUpdate <;>
    simp [htag, htype, hmark]

def Item.replaced (cfg : Config) (d o : Item) : Item :=
  let b := copyHeader cfg d.block o.block
  if b.value = o.block.value then { d with block := b }
  else { d with block := { b with value := o.block.value, update := true }, lost := false }

/-- With memory, a copy succeeds if there is a value to copy or none to replace. -/
theorem blockCopy_replaced (hd : d.lost = false) (ho : o.lost = false)
    (hvalue : o.block.value = [] → d.block.value = []) :
    blockCopy cfg ptr true d o = some (d.replaced cfg o, .ok ()) := by
  have hkeep : (copyHeader cfg d.block o.block).value = d.block.value := copyHeader_value _ _
  unfold blockCopy Item.replaced
  by_cases hsame : d.block.value = o.block.value
  · simp [Block.len, hkeep, hsame, hd, ho]
  · have hne : o.block.value.length ≠ 0 := by
      intro h0
      have hnil := length_eq_zero_iff.mp h0
      exact hsame ((hvalue hnil).trans hnil.symm)
    simp only [Block.len, hkeep, hd, ho, Item.bytes, packInto, hne, hsame, Bool.or_true, Bool.false_eq_true, if_false,
      if_true, ne_eq, not_false_eq_true]
    split <;> rfl

theorem Item.replaced_tag : (d.replaced cfg o).tag = o.tag := by
  unfold Item.replaced Item.tag
  dsimp only
  split <;> exact copyHeader_tag d.block o.block

theorem Item.replaced_type : (d.replaced cfg o).block.type = (copyHeader cfg d.block o.block).type := by
  unfold Item.replaced
  dsimp only
  split <;> rfl

theorem Item.replaced_value : (d.replaced cfg o).block.value = o.block.value := by
  unfold Item.replaced
  dsimp only
  split
  · assumption
  · rfl

theorem Item.replaced_same_iff : (d.replaced cfg o).block.Same cfg o.block ↔
    cfg.CopiesTypes ∨ d.block.type = o.block.type := by
  by_cases hcfg : cfg.CopiesTypes
  · refine iff_of_true ⟨fun htyped => ?_, congrArg List.length Item.replaced_value, Item.replaced_value⟩ (.inl hcfg)
    rw [Item.replaced_type]
    exact copyHeader_type (hcfg.dttv htyped) d.block o.block
  · -- only the other format has a type: the copy leaves it
    obtain ⟨hdttv, httlv⟩ := not_or.mp hcfg
    have htyped : cfg.typed = true := by simp [Config.typed, Option.isSome_iff_ne_none.mpr httlv]
    have hid : cfg.typeId o.block.type = o.block.type := by simp [Config.typeId, hdttv]
    have htype : (d.replaced cfg o).block.type = d.block.type := by
      rw [Item.replaced_type]
      unfold copyHeader
      by_cases htag : d.block.tag = o.block.tag <;> simp [hdttv, htag]
    refine ⟨fun h => .inr (htype.symm.trans ((h.type htyped).trans hid)), fun h => ?_⟩
    refine ⟨fun _ => ?_, congrArg List.length Item.replaced_value, Item.replaced_value⟩
    rw [htype, hid]
    exact h.resolve_left hcfg

theorem Item.replaced_update (cfg : Config) (d o : Item) : (d.replaced cfg o).block.update =
    (d.block.update || decide (d.tag ≠ o.tag) || (cfg.dttv.isSome && decide (d.block.type ≠ o.block.type)) ||
      cfg.forced o.block.type || decide (d.block.value ≠ o.block.value)) := by
  unfold Item.replaced Item.tag
  dsimp only
  rw [copyHeader_value]
  by_cases hvalue : d.block.value = o.block.value
  · simp [hvalue, copyHeader_update]
  · simp [hvalue]

def Item.marked (it : Item) : Item := { it with block := { it.block with update := true } }

def Item.created (cfg : Config) (o : Item) : Item := (blockCreat.replaced cfg o).marked

theorem Item.created_tag : (o.created cfg).tag = o.tag := Item.replaced_tag

theorem Item.created_same_iff : (o.created cfg).block.Same cfg o.block ↔ cfg.CopiesTypes ∨ o.block.type = 0 := by
  rw [eq_comm]
  exact Iff.trans ⟨fun h => ⟨h.type, h.len, h.value⟩, fun h => ⟨h.type, h.len, h.value⟩⟩
    (Item.replaced_same_iff (d := blockCreat))

theorem blockCopy_created (ho : o.lost = false) :
    blockCopy cfg ptr true blockCreat o = some (blockCreat.replaced cfg o, .ok ()) :=
  blockCopy_replaced rfl ho fun _ => rfl

theorem Ctx.add_fresh (it : Item) (h : it.tag ∉ c.tags) :
    c.add it = (⟨c.items ++ [it.marked], c.count + 1⟩, .ok ()) := by
  rcases c.add_cases it with ⟨hmem, -⟩ | ⟨-, heq⟩
  · exact absurd hmem h
  · exact heq

theorem Ctx.entries_append (it : Item) (n : Int) (h : it.tag ∉ c.tags) :
    (⟨c.items ++ [it], n⟩ : Ctx).entries = putEntries it.tag it c.entries :=
  (putEntries_keyed_of_notMem rfl h).symm

end Copies

/-! ### Merging -/

def merged (cfg : Config) : Option Item → Item → Item
  | some d, o => d.replaced cfg o
  | none, o => o.created cfg

section Merging
variable {cfg : Config} {ptr : Nat} {c : Ctx} {o : Item}

/-- The type of the block that takes the copy; that of a new one is zero. -/
def typeBefore (d : Option Item) : UInt8 := d.elim 0 fun it => it.block.type

theorem merged_same_iff (d : Option Item) :
    (merged cfg d o).block.Same cfg o.block ↔ cfg.CopiesTypes ∨ typeBefore d = o.block.type := by
  cases d with
  | none => exact Item.created_same_iff.trans (or_congr_right eq_comm)
  | some d => exact Item.replaced_same_iff

/-- What a copy needs of a block and the one it may find. -/
structure Copyable (d : Option Item) (o : Item) : Prop where
  there : o.lost = false
  onto : ∀ d' ∈ d, d'.lost = false ∧ (o.block.value = [] → d'.block.value = [])

/-- The look-up finds the block that has the tag: it is not cut, or neither the tag nor what is left of it is there. -/
def Finds (cfg : Config) (seen : List Nat) (tag : Nat) : Prop :=
  tag < cfg.lengthByte.limit ∨ tag ∉ seen ∧ tag % cfg.lengthByte.limit ∉ seen

/-- The same for one tag after the other, each of which is there from then on. -/
def Found (cfg : Config) : List Nat → List Nat → Prop
  | _, [] => True
  | seen, tag :: rest => Finds cfg seen tag ∧ Found cfg (seen ++ [tag]) rest

theorem Found.of_mem {seen seen' tags : List Nat} (hmem : ∀ t, t ∈ seen ↔ t ∈ seen') :
    Found cfg seen tags ↔ Found cfg seen' tags := by
  induction tags generalizing seen seen' with
  | nil => rfl
  | cons tag rest ih =>
    exact and_congr (by rw [Finds, Finds, hmem, hmem]) (ih fun t => by rw [mem_append, mem_append, hmem])

def Ctx.Whole (c : Ctx) : Prop := ∀ it ∈ c.items, it.lost = false

instance (c : Ctx) : Decidable c.Whole := inferInstanceAs (Decidable (∀ it ∈ c.items, it.lost = false))

theorem Ctx.find_some {tag j : Nat} (h : c.find cfg tag = some j) :
    ∃ hlt : j < c.items.length, c.items[j].tag = tag % cfg.lengthByte.limit ∧
      c.get (tag % cfg.lengthByte.limit) = some c.items[j] := by
  obtain ⟨hlt, hj, -⟩ := findIdx?_eq_some_iff_getElem.mp h
  exact ⟨hlt, beq_iff_eq.mp hj, (lookup_keyed_of_findIdx h).trans (getElem?_eq_getElem hlt)⟩

theorem Ctx.find_none {tag : Nat} (h : c.find cfg tag = none) : tag % cfg.lengthByte.limit ∉ c.tags := by
  rw [Ctx.find, findIdx?_eq_none_iff] at h
  intro hmem
  obtain ⟨it, hit, htag⟩ := mem_map.mp hmem
  exact absurd (beq_iff_eq.mpr htag) (by simpa using h it hit)

theorem getElem?_of_drop {α : Type} {l rest : List α} {x : α} {k : Nat} (h : l.drop k = x :: rest) :
    l[k]? = some x ∧ l.drop (k + 1) = rest := by
  refine ⟨?_, ?_⟩
  · rw [← Nat.add_zero k, ← getElem?_drop, h]
    rfl
  · rw [← tail_drop, h]
    rfl

theorem Item.replaced_lost {d : Item} (h : d.lost = false) : (d.replaced cfg o).lost = false := by
  unfold Item.replaced
  dsimp only
  split
  · exact h
  · rfl

/-- One block of the source: a binding for its tag. -/
theorem mergeBlock_put (ptr : Nat) (hfinds : Finds cfg c.tags o.tag) (h : Copyable (c.get o.tag) o) (hwhole : c.Whole) :
    ∃ c', mergeBlock cfg ptr (true, true) c o = some (c', .ok ()) ∧
      c'.entries = putEntries o.tag (merged cfg (c.get o.tag) o) c.entries ∧ c'.Whole := by
  cases hfind : c.find cfg o.tag with
  | some j =>
    obtain ⟨hlt, htag, hd⟩ := Ctx.find_some hfind
    -- only the whole tag is found
    have hcut : o.tag % cfg.lengthByte.limit = o.tag := by
      rcases hfinds with hlt | ⟨-, hnone⟩
      · exact Nat.mod_eq_of_lt hlt
      · exact absurd (mem_map.mpr ⟨_, getElem_mem hlt, htag⟩) hnone
    have hidx : c.items.findIdx? (fun it => it.tag == o.tag) = some j := by
      rw [Ctx.find, hcut] at hfind
      exact hfind
    rw [hcut] at hd
    obtain ⟨hlost, hvalue⟩ := h.onto _ hd
    refine ⟨c.setItem j (c.items[j].replaced cfg o), ?_, ?_, fun it hit => ?_⟩
    · have hfind : c.find cfg o.block.tag = some j := hfind
      simp only [mergeBlock, hfind, getD_eq_getElem _ _ hlt, blockCopy_replaced hlost h.there hvalue]
    · rw [hd]
      exact (putEntries_keyed_of_findIdx Item.replaced_tag hidx).symm
    · obtain hit | rfl := mem_or_eq_of_mem_set hit
      · exact hwhole it hit
      · exact Item.replaced_lost hlost
  | none =>
    have hfresh : o.tag ∉ c.tags := by
      rcases hfinds with hlt | ⟨hfresh, -⟩
      · rw [← Nat.mod_eq_of_lt hlt]
        exact Ctx.find_none hfind
      · exact hfresh
    have hadd := c.add_fresh (blockCreat.replaced cfg o) (by rwa [Item.replaced_tag])
    refine ⟨⟨c.items ++ [o.created cfg], c.count + 1⟩, ?_, ?_,
      forall_mem_append.mpr ⟨hwhole, forall_mem_singleton.mpr (Item.replaced_lost rfl)⟩⟩
    · have hfind : c.find cfg o.block.tag = none := hfind
      simp only [mergeBlock, hfind, blockCopy_created h.there, hadd, Bool.not_true, Bool.false_eq_true, if_false]
      rfl
    · rw [Ctx.get_eq_none.mpr hfresh]
      have htag : (o.created cfg).tag = o.tag := Item.created_tag
      have happend := c.entries_append (o.created cfg) (c.count + 1) (htag.symm ▸ hfresh)
      rw [htag] at happend
      exact happend

theorem Ctx.tags_put {c' : Ctx} {it : Item} (h : c'.entries = putEntries o.tag it c.entries) :
    c'.tags = if o.tag ∈ c.tags then c.tags else c.tags ++ [o.tag] := by
  rw [← Ctx.keys_entries, h, keys_putEntries, Ctx.keys_entries]

theorem Ctx.mem_tags_put {c' : Ctx} {it : Item} (h : c'.entries = putEntries o.tag it c.entries) (t : Nat) :
    t ∈ c.tags ++ [o.tag] ↔ t ∈ c'.tags := by
  rw [Ctx.tags_put h]
  split
  · next hmem =>
    rw [mem_append, mem_singleton, or_iff_left_iff_imp]
    rintro rfl
    exact hmem
  · rfl

theorem Ctx.get_put {c' : Ctx} {it : Item} (h : c'.entries = putEntries o.tag it c.entries) {t : Nat} (ht : t ≠ o.tag) :
    c'.get t = c.get t := by
  rw [Ctx.get, h, lookup_putEntries, if_neg ht]
  rfl

/-- The walk along the source, from its `k`-th block on. -/
theorem mergeLoop_put (ptr : Nat) {dst src : Nat} (hne : dst ≠ src) {rest : List Item} (k : Nat) (s : Contexts)
    (hrest : (s src).items.drop k = rest) (htags : (rest.map Item.tag).Nodup) (hwhole : (s dst).Whole)
    (hfound : Found cfg (s dst).tags (rest.map Item.tag)) (h : ∀ o ∈ rest, Copyable ((s dst).get o.tag) o) :
    ∃ c', mergeLoop cfg ptr (fun _ => (true, true)) dst src (List.range' k rest.length) s =
        some (Function.update s dst c', .ok ()) ∧
      c'.entries = mergeEntries (merged cfg) (s dst).entries (keyed Item.tag rest) := by
  induction rest generalizing k s with
  | nil => exact ⟨s dst, by rw [update_eq_self]; rfl, rfl⟩
  | cons o rest ih =>
    obtain ⟨hget, hdrop⟩ := getElem?_of_drop hrest
    rw [map_cons, nodup_cons] at htags
    obtain ⟨c₁, hblock, hentries, hwhole₁⟩ := mergeBlock_put ptr hfound.1 (h o mem_cons_self) hwhole
    have hsrc : Function.update s dst c₁ src = s src := update_of_ne (Ne.symm hne) _ _
    obtain ⟨c', hloop, hc'⟩ := ih (k + 1) (Function.update s dst c₁) (by rw [hsrc]; exact hdrop) htags.2
      (by rwa [update_self]) (by rw [update_self]; exact (Found.of_mem (Ctx.mem_tags_put hentries)).mp hfound.2) (by
      intro o' ho'
      rw [update_self, Ctx.get_put hentries fun heq => htags.1 (mem_map.mpr ⟨o', ho', heq⟩)]
      exact h o' (mem_cons_of_mem _ ho'))
    refine ⟨c', ?_, ?_⟩
    · rw [length_cons, range'_succ, mergeLoop]
      simp only [hget, hblock, hloop, update_idem]
    · rw [hc', update_self, hentries]
      rfl

/-! What a merge that succeeds has found. -/

theorem blockCopy_ok {d it : Item} (ho : o.lost = false) (h : blockCopy cfg ptr true d o = some (it, .ok ())) :
    o.block.value = [] → d.block.value = [] := by
  intro hnil
  by_contra hne
  simp [blockCopy, Block.len, copyHeader_value, hnil, hne, packInto, Item.bytes, ho] at h

theorem Config.limit_pos (cfg : Config) : 0 < cfg.lengthByte.limit := by
  cases cfg.lengthByte <;> decide

/-- A tag wider than the look-up stays at its place. -/
theorem mergeBlock_stays {mem : Bool × Bool} {c' : Ctx} {j t : Nat} (h : mergeBlock cfg ptr mem c o = some (c', .ok ()))
    (hj : c.tags[j]? = some t) (ht : cfg.lengthByte.limit ≤ t) : c'.tags[j]? = some t := by
  unfold mergeBlock at h
  split at h
  · next i hfind =>
    split at h
    · cases h
    · next it ret hcopy =>
      obtain ⟨rfl, -⟩ := Prod.mk.inj (Option.some.inj h)
      obtain ⟨hlt, htag, -⟩ := Ctx.find_some hfind
      have hne : i ≠ j := by
        rintro rfl
        have hi : c.tags[i]? = some c.items[i].tag := by
          rw [Ctx.tags, getElem?_map, getElem?_eq_getElem hlt]
          rfl
        have hcut := Nat.mod_lt o.block.tag cfg.limit_pos
        rw [hi, htag] at hj
        have := Option.some.inj hj
        omega
      show ((c.items.set i it).map _)[j]? = _
      rw [map_set, getElem?_set_ne hne]
      exact hj
  · split at h
    · cases h
    · split at h
      · cases h
      · cases h
      · next it _ =>
        rcases c.add_cases it with ⟨-, heq⟩ | ⟨-, heq⟩
        · rw [heq] at h
          cases h
        · rw [heq] at h
          obtain ⟨rfl, -⟩ := Prod.mk.inj (Option.some.inj h)
          have hlt : j < c.tags.length := (List.getElem?_eq_some_iff.mp hj).1
          rw [Ctx.tags, map_append]
          exact (getElem?_append_left hlt).trans hj

theorem mergeLoop_stays {mem : Allocator} {dst src : Nat} {list : List Nat} {s s' : Contexts} {j t : Nat}
    (h : mergeLoop cfg ptr mem dst src list s = some (s', .ok ())) (hj : (s dst).tags[j]? = some t)
    (ht : cfg.lengthByte.limit ≤ t) : (s' dst).tags[j]? = some t := by
  induction list generalizing s with
  | nil =>
    obtain ⟨rfl, -⟩ := Prod.mk.inj (Option.some.inj h)
    exact hj
  | cons i rest ih =>
    rw [mergeLoop] at h
    split at h
    · obtain ⟨rfl, -⟩ := Prod.mk.inj (Option.some.inj h)
      exact hj
    · split at h
      · cases h
      · cases h
      · next c hblock => exact ih h (by rw [update_self]; exact mergeBlock_stays hblock hj ht)

/-- A block that is copied without moving another one's tag was found. -/
theorem mergeBlock_found {c' : Ctx} (hwhole : c.Whole) (ho : o.lost = false)
    (h : mergeBlock cfg ptr (true, true) c o = some (c', .ok ()))
    (hkeeps : ∀ j t, cfg.lengthByte.limit ≤ t → c'.tags[j]? = some t → j < c.tags.length → c.tags[j]? = some t) :
    Finds cfg c.tags o.tag ∧ Copyable (c.get o.tag) o := by
  unfold mergeBlock at h
  split at h
  · next j hfind =>
    obtain ⟨hlt, htag, hd⟩ := Ctx.find_some hfind
    have hlost := hwhole _ (getElem_mem hlt)
    rw [getD_eq_getElem _ _ hlt] at h
    split at h
    · cases h
    next it ret hcopy =>
    obtain ⟨rfl, rfl⟩ := Prod.mk.inj (Option.some.inj h)
    have hvalue := blockCopy_ok ho hcopy
    obtain ⟨rfl, -⟩ := Prod.mk.inj (Option.some.inj (hcopy.symm.trans (blockCopy_replaced hlost ho hvalue)))
    have hnarrow : o.tag < cfg.lengthByte.limit := by
      by_contra hwide
      have hlen : j < c.tags.length := by rwa [Ctx.tags, length_map]
      have hmoved : (c.setItem j (c.items[j].replaced cfg o)).tags[j]? = some o.tag := by
        show ((c.items.set j _).map _)[j]? = _
        rw [map_set, getElem?_set_self (by rwa [length_map])]
        exact congrArg some Item.replaced_tag
      have hstood := hkeeps j o.tag (Nat.le_of_not_lt hwide) hmoved hlen
      have hj : c.tags[j]? = some c.items[j].tag := by
        rw [Ctx.tags, getElem?_map, getElem?_eq_getElem hlt]
        rfl
      have hcut := Nat.mod_lt o.block.tag cfg.limit_pos
      rw [hj, htag] at hstood
      have := Option.some.inj hstood
      omega
    have hwhat : o.block.tag % cfg.lengthByte.limit = o.tag := Nat.mod_eq_of_lt hnarrow
    rw [hwhat] at hd
    refine ⟨.inl hnarrow, ho, fun it hit => ?_⟩
    obtain rfl := Option.some.inj (hd.symm.trans hit)
    exact ⟨hlost, hvalue⟩
  · next hfind =>
    rw [blockCopy_created ho] at h
    have hfresh : o.tag ∉ c.tags := by
      intro hmem
      rcases c.add_cases (blockCreat.replaced cfg o) with ⟨-, heq⟩ | ⟨hnone, -⟩
      · rw [Bool.not_true, if_neg Bool.false_ne_true] at h
        dsimp only at h
        rw [heq] at h
        cases h
      · exact hnone (show (blockCreat.replaced cfg o).tag ∈ c.tags by rwa [Item.replaced_tag])
    refine ⟨.inr ⟨hfresh, Ctx.find_none hfind⟩, ho, fun it hit => ?_⟩
    rw [Ctx.get_eq_none.mpr hfresh] at hit
    cases hit

/-- **A merge that succeeds and leaves the blocks in order has found them all.** -/
theorem mergeLoop_found {dst src : Nat} (hne : dst ≠ src) {rest : List Item} (k : Nat) (s : Contexts) {s' : Contexts}
    (hrest : (s src).items.drop k = rest) (htags : (rest.map Item.tag).Nodup) (hwhole : (s dst).Whole)
    (hlost : ∀ o ∈ rest, o.lost = false)
    (h : mergeLoop cfg ptr (fun _ => (true, true)) dst src (List.range' k rest.length) s = some (s', .ok ()))
    (horder : (s' dst).tags = (s dst).tags ++ (rest.map Item.tag).filter fun tag => tag ∉ (s dst).tags) :
    Found cfg (s dst).tags (rest.map Item.tag) ∧ ∀ o ∈ rest, Copyable ((s dst).get o.tag) o := by
  induction rest generalizing k s with
  | nil => exact ⟨trivial, fun _ ho => absurd ho not_mem_nil⟩
  | cons o rest ih =>
    obtain ⟨hget, hdrop⟩ := getElem?_of_drop hrest
    rw [map_cons, nodup_cons] at htags
    rw [length_cons, range'_succ, mergeLoop] at h
    simp only [hget] at h
    split at h
    · cases h
    · cases h
    next c₁ hblock =>
    have hkeeps : ∀ j t, cfg.lengthByte.limit ≤ t → c₁.tags[j]? = some t → j < (s dst).tags.length →
        (s dst).tags[j]? = some t := by
      intro j t ht hj hlt
      have hstays := mergeLoop_stays h (by rw [update_self]; exact hj) ht
      rwa [horder, getElem?_append_left hlt] at hstays
    obtain ⟨hfinds, hcopyable⟩ := mergeBlock_found hwhole (hlost o mem_cons_self) hblock hkeeps
    obtain ⟨c₂, hblock', hentries, hwhole₁⟩ := mergeBlock_put ptr hfinds hcopyable hwhole
    obtain ⟨rfl, -⟩ := Prod.mk.inj (Option.some.inj (hblock.symm.trans hblock'))
    have hsrc : Function.update s dst c₁ src = s src := update_of_ne (Ne.symm hne) _ _
    have horder₁ : (s' dst).tags = c₁.tags ++ (rest.map Item.tag).filter fun tag => tag ∉ c₁.tags := by
      rw [horder, Ctx.tags_put hentries, map_cons]
      by_cases hmem : o.tag ∈ (s dst).tags
      · rw [if_pos hmem, filter_cons_of_neg (by simp [hmem])]
      · rw [if_neg hmem, filter_cons_of_pos (by simp [hmem]), append_assoc, singleton_append]
        refine congrArg _ (congrArg _ (filter_congr fun tag htag => ?_))
        have hne : tag ≠ o.tag := fun heq => htags.1 (heq ▸ htag)
        simp [hne]
    obtain ⟨hfound, hcopies⟩ := ih (k + 1) (Function.update s dst c₁) (by rw [hsrc]; exact hdrop) htags.2
      (by rwa [update_self]) (fun o' ho' => hlost o' (mem_cons_of_mem _ ho')) h (by rw [update_self]; exact horder₁)
    rw [update_self] at hfound hcopies
    refine ⟨⟨hfinds, (Found.of_mem (Ctx.mem_tags_put hentries)).mpr hfound⟩, forall_mem_cons.mpr ⟨hcopyable, ?_⟩⟩
    intro o' ho'
    rw [← Ctx.get_put hentries fun heq => htags.1 (mem_map.mpr ⟨o', ho', heq⟩)]
    exact hcopies o' ho'

end Merging

/-- What a merge is meant to leave in the destination: a union in which the source wins. -/
structure Merged (cfg : Config) (d s d' : Ctx) : Prop where
  order : d'.tags = d.tags ++ s.tags.filter fun tag => tag ∉ d.tags
  taken : ∀ tag o, s.get tag = some o → ∃ it, d'.get tag = some it ∧ it.block.Same cfg o.block
  kept : ∀ tag, s.get tag = none → d'.get tag = d.get tag
  update : ∀ tag it, d'.get tag = some it → (it.block.update = true ↔ d.get tag = none ∨
    (∃ old, d.get tag = some old ∧
      (old.block.update = true ∨ old.block.len ≠ it.block.len ∨ old.block.value ≠ it.block.value)) ∨
    ∃ o, s.get tag = some o ∧ cfg.forced o.block.type = true)

/-- Contexts that merge as they are meant to: the look-up finds the blocks, a block that both have
has a value in the source if it has one in the destination, a type that differs does not mark it updated
alone, and the type is copied or there already. -/
structure Mergeable (cfg : Config) (d s : Ctx) : Prop where
  found : Found cfg d.tags s.tags
  value : ∀ tag o it, s.get tag = some o → d.get tag = some it → o.block.value = [] → it.block.value = []
  mark : ∀ tag o it, s.get tag = some o → d.get tag = some it → cfg.dttv.isSome → it.block.type ≠ o.block.type →
    it.block.update = true ∨ it.block.value ≠ o.block.value ∨ cfg.forced o.block.type = true
  types : ∀ tag o, s.get tag = some o → cfg.CopiesTypes ∨ typeBefore (d.get tag) = o.block.type

section Merging
variable {cfg : Config} {ptr : Nat} {d s d' : Ctx}

theorem Ctx.mem_of_get {c : Ctx} {tag : Nat} {it : Item} (h : c.get tag = some it) : it ∈ c.items ∧ it.tag = tag :=
  lookup_keyed_eq_some h

theorem Ctx.get_of_mem {c : Ctx} {it : Item} (hc : c.tags.Nodup) (h : it ∈ c.items) : c.get it.tag = some it :=
  lookup_keyed_of_mem hc h

/-- A copy marks the block updated for a reason exactly if a type that differs is not the only one. -/
theorem merged_update (cfg : Config) {o : Item} (it : Item) (hit : it.tag = o.tag) :
    ((merged cfg (some it) o).block.update = true ↔
      it.block.update = true ∨ it.block.value ≠ o.block.value ∨ cfg.forced o.block.type = true) ↔
    (cfg.dttv.isSome → it.block.type ≠ o.block.type →
      it.block.update = true ∨ it.block.value ≠ o.block.value ∨ cfg.forced o.block.type = true) := by
  have hupdate : (merged cfg (some it) o).block.update = _ := Item.replaced_update cfg it o
  rw [hupdate]
  simp only [hit, ne_eq, not_true_eq_false, decide_false, Bool.or_false, Bool.or_eq_true, Bool.and_eq_true,
    decide_eq_true_eq]
  tauto

/-- What the bindings say of a merge. -/
theorem merged_iff (hs : s.tags.Nodup)
    (hd' : d'.entries = mergeEntries (merged cfg) d.entries (keyed Item.tag s.items)) : Merged cfg d s d' ↔
      (∀ tag o it, s.get tag = some o → d.get tag = some it → cfg.dttv.isSome → it.block.type ≠ o.block.type →
        it.block.update = true ∨ it.block.value ≠ o.block.value ∨ cfg.forced o.block.type = true) ∧
      ∀ tag o, s.get tag = some o → cfg.CopiesTypes ∨ typeBefore (d.get tag) = o.block.type := by
  have hkeys : ((keyed Item.tag s.items).map Prod.fst).Nodup := (keys_keyed Item.tag s.items).symm ▸ hs
  have hget : ∀ tag, d'.get tag = (s.get tag).elim (d.get tag) fun o => some (Tlv.merged cfg (d.get tag) o) := by
    intro tag
    rw [Ctx.get, hd', lookup_mergeEntries _ _ hkeys]
    rfl
  have htaken {tag : Nat} {o : Item} (ho : s.get tag = some o) : d'.get tag = some (Tlv.merged cfg (d.get tag) o) := by
    rw [hget, ho]
    rfl
  have htags {tag : Nat} {o old : Item} (ho : s.get tag = some o) (hold : d.get tag = some old) : old.tag = o.tag :=
    (Ctx.mem_of_get hold).2.trans (Ctx.mem_of_get ho).2.symm
  -- the reasons for the mark of a block that both have
  have hreasons {tag : Nat} {o old : Item} (ho : s.get tag = some o) (hold : d.get tag = some old) :
      (d.get tag = none ∨ (∃ old', d.get tag = some old' ∧ (old'.block.update = true ∨
          old'.block.len ≠ (Tlv.merged cfg (d.get tag) o).block.len ∨
          old'.block.value ≠ (Tlv.merged cfg (d.get tag) o).block.value)) ∨
        ∃ o', s.get tag = some o' ∧ cfg.forced o'.block.type = true) ↔
      old.block.update = true ∨ old.block.value ≠ o.block.value ∨ cfg.forced o.block.type = true := by
    have hvalue : (Tlv.merged cfg (some old) o).block.value = o.block.value := Item.replaced_value
    simp only [hold, ho, Block.len, hvalue]
    constructor
    · rintro (hnone | ⟨old', ⟨⟩, hup | hlen | hdiffers⟩ | ⟨o', ⟨⟩, hforced⟩)
      · cases hnone
      · exact .inl hup
      · exact .inr (.inl fun heq => hlen (congrArg List.length heq))
      · exact .inr (.inl hdiffers)
      · exact .inr (.inr hforced)
    · rintro (hup | hdiffers | hforced)
      · exact .inr (.inl ⟨old, rfl, .inl hup⟩)
      · exact .inr (.inl ⟨old, rfl, .inr (.inr hdiffers)⟩)
      · exact .inr (.inr ⟨o, rfl, hforced⟩)
  constructor
  · refine fun h => ⟨fun tag o it ho hit => ?_, fun tag o ho => ?_⟩
    · have hmark := h.update tag _ (htaken ho)
      rw [hreasons ho hit, hit] at hmark
      exact (merged_update cfg it (htags ho hit)).mp hmark
    · obtain ⟨it, hit, hsame⟩ := h.taken tag o ho
      obtain rfl := Option.some.inj ((htaken ho).symm.trans hit)
      exact (merged_same_iff _).mp hsame
  · rintro ⟨hmark, htypes⟩
    refine ⟨?_, fun tag o ho => ⟨_, htaken ho, (merged_same_iff _).mpr (htypes tag o ho)⟩, fun tag hnone => ?_,
      fun tag it hit => ?_⟩
    · have horder := keys_mergeEntries (Tlv.merged cfg) d.entries hkeys
      rw [← hd', Ctx.keys_entries, Ctx.keys_entries, keys_keyed] at horder
      exact horder
    · rw [hget, hnone]
      rfl
    · obtain ho | ⟨o, ho⟩ := Option.eq_none_or_eq_some (s.get tag)
      · rw [hget, ho] at hit
        have hit : d.get tag = some it := hit
        simp [hit, ho]
      · rw [htaken ho] at hit
        obtain rfl := Option.some.inj hit
        obtain hold | ⟨old, hold⟩ := Option.eq_none_or_eq_some (d.get tag)
        · rw [hold]
          exact ⟨fun _ => .inl rfl, fun _ => rfl⟩
        · rw [hreasons ho hold, hold]
          exact (merged_update cfg old (htags ho hold)).mpr (hmark tag o old ho hold)

end Merging

/-- **A merge is a union in which the source wins**, with memory, in every build and for every two contexts with
unique tags, exactly if they are mergeable. The source is left as it is. -/
theorem merge_union (cfg : Config) (ptr : Nat) (s : Contexts) (dst src : Nat) (hne : dst ≠ src)
    (hdst : (s dst).tags.Nodup) (hsrc : (s src).tags.Nodup) (hdstWhole : (s dst).Whole) (hsrcWhole : (s src).Whole) :
    (∃ s', merge cfg ptr (fun _ => (true, true)) dst src s = some (s', .ok ()) ∧
      s' src = s src ∧ Merged cfg (s dst) (s src) (s' dst) ∧ (s' dst).tags.Nodup) ↔
    Mergeable cfg (s dst) (s src) := by
  -- a merge that finds its blocks leaves these bindings
  have hputs (hfound : Found cfg (s dst).tags (s src).tags)
      (hcopies : ∀ o ∈ (s src).items, Copyable ((s dst).get o.tag) o) := by
    exact mergeLoop_put ptr hne 0 s rfl hsrc hdstWhole hfound hcopies
  rw [merge, range_eq_range']
  constructor
  · rintro ⟨s', hloop, -, hmerged, -⟩
    obtain ⟨hfound, hcopies⟩ := mergeLoop_found hne 0 s rfl hsrc hdstWhole hsrcWhole hloop hmerged.order
    obtain ⟨d', hloop', hd'⟩ := hputs hfound hcopies
    obtain ⟨rfl, -⟩ := Prod.mk.inj (Option.some.inj (hloop.symm.trans hloop'))
    rw [update_self] at hmerged
    obtain ⟨hmark, htypes⟩ := (merged_iff hsrc hd').mp hmerged
    refine ⟨hfound, fun tag o it ho hit => ?_, hmark, htypes⟩
    obtain ⟨hmem, rfl⟩ := Ctx.mem_of_get ho
    exact ((hcopies o hmem).onto it hit).2
  · intro h
    have hcopies : ∀ o ∈ (s src).items, Copyable ((s dst).get o.tag) o := fun o ho =>
      ⟨hsrcWhole o ho, fun it hit =>
        ⟨hdstWhole it (Ctx.mem_of_get hit).1, h.value _ o it (Ctx.get_of_mem hsrc ho) hit⟩⟩
    obtain ⟨d', hloop, hd'⟩ := hputs h.found hcopies
    have hmerged : Merged cfg (s dst) (s src) d' := (merged_iff hsrc hd').mpr ⟨h.mark, h.types⟩
    refine ⟨Function.update s dst d', hloop, update_of_ne (Ne.symm hne) _ _, ?_, ?_⟩
    · rwa [update_self]
    · rw [update_self, hmerged.order]
      refine nodup_append.mpr ⟨hdst, hsrc.filter _, fun a ha b hb hab => ?_⟩
      have hnew := (mem_filter.mp hb).2
      exact (of_decide_eq_true hnew) (hab ▸ ha)

def numbered (tag : Nat) (value : UInt8) : Item := ⟨⟨tag, 2, [value], false, false⟩, false, false⟩

/-- Two contexts, with the tag `0x1234` in both. -/
def twoContexts : Contexts
  | 0 => ⟨[numbered 0x34 5, numbered 0x1234 5], 2⟩
  | 1 => ⟨[numbered 0x1234 6, numbered 0x35 7], 2⟩
  | _ => {}

theorem twoContexts_whole (c : Nat) : (twoContexts c).Whole := by
  match c with
  | 0 => decide
  | 1 => decide
  | _ + 2 => exact fun _ h => (not_mem_nil h).elim

theorem merge_union_two :
    ∃ s', merge (wideTags .two) 4 (fun _ => (true, true)) 0 1 twoContexts = some (s', .ok ()) ∧
      s' 1 = twoContexts 1 ∧ Merged (wideTags .two) (twoContexts 0) (twoContexts 1) (s' 0) ∧ (s' 0).tags.Nodup := by
  have hvalues : ∀ o ∈ (twoContexts 1).items, o.block.value ≠ [] := by decide
  have hsrc : ∀ o ∈ (twoContexts 1).items, o.block.type = 2 := by decide
  have hdst : ∀ o ∈ (twoContexts 0).items, o.block.type = 2 := by decide
  refine (merge_union (wideTags .two) 4 twoContexts 0 1 (by decide) (by decide) (by decide) (twoContexts_whole 0)
    (twoContexts_whole 1)).mpr ⟨⟨.inl (by decide), .inl (by decide), trivial⟩, fun tag o it ho hit hnil => ?_,
      fun tag o it ho hit _ hne => ?_, fun tag o ho => .inl (.inl rfl)⟩
  · exact absurd hnil (hvalues o (Ctx.mem_of_get ho).1)
  · exact absurd ((hdst it (Ctx.mem_of_get hit).1).trans (hsrc o (Ctx.mem_of_get ho).1).symm) hne

/-- Where lengths have one byte, the block `0x34` is found for the tag `0x1234`: it takes that
tag and the value, and the block that had the tag keeps its own. -/
theorem merge_not_union :
    ∃ (cfg : Config) (ptr : Nat) (s : Contexts) (dst src : Nat), dst ≠ src ∧ (s dst).tags.Nodup ∧
      (s src).tags.Nodup ∧ (s dst).Whole ∧ (s src).Whole ∧
      ¬ ∃ s' ret, merge cfg ptr (fun _ => (true, true)) dst src s = some (s', ret) ∧
        Merged cfg (s dst) (s src) (s' dst) := by
  refine ⟨wideTags .one, 4, twoContexts, 0, 1, by decide, by decide, by decide, twoContexts_whole 0,
    twoContexts_whole 1, ?_⟩
  rintro ⟨s', ret, hmerge, hmerged⟩
  have hget : (merge (wideTags .one) 4 (fun _ => (true, true)) 0 1 twoContexts).map
      (fun r => ((r.1 0).get 0x34).isNone) = some true := by decide +kernel
  rw [hmerge] at hget
  have hnone : (s' 0).get 0x34 = none := Option.isNone_iff_eq_none.mp (Option.some.inj hget)
  have hkept := hmerged.kept 0x34 (by decide)
  rw [hnone] at hkept
  exact absurd hkept (by decide)

/-! ### Dividing -/

def DivideType.left (type : DivideType) (it : Item) : Item := if type.wants it then type.picked it else it

theorem DivideType.picked_lost (type : DivideType) (it : Item) : (type.picked it).lost = it.lost := by
  cases type <;> rfl

theorem DivideType.picked_block (type : DivideType) (it : Item) : (type.picked it).block = it.block := by
  cases type <;> rfl

theorem DivideType.left_tag (type : DivideType) (it : Item) : (type.left it).tag = it.tag := by
  unfold DivideType.left
  split
  · exact congrArg Block.tag (type.picked_block it)
  · rfl

section Dividing
variable {cfg : Config} {ptr : Nat} {c : Ctx} {o : Item} {type : DivideType}

theorem Item.created_picked (type : DivideType) (o : Item) : (type.picked o).created cfg = o.created cfg := by
  rw [Item.created, Item.created, Item.replaced, Item.replaced, type.picked_block]

/-- One block of the source: it is there, unless its tag was. -/
theorem divideBlock_get (cfg : Config) (ptr : Nat) (type : DivideType) (c : Ctx) (ho : o.lost = false) :
    ∃ c', divideBlock cfg ptr (true, true) c (type.picked o) = some (c', .ok ()) ∧
      ∀ tag, c'.get tag = (c.get tag).or (if tag = o.tag then some (o.created cfg) else none) := by
  have htag : (blockCreat.replaced cfg (type.picked o)).tag = o.tag := by
    rw [Item.replaced_tag, Item.tag, type.picked_block]
    rfl
  refine ⟨(c.add (blockCreat.replaced cfg (type.picked o))).1, ?_, fun tag => ?_⟩
  · simp only [divideBlock, blockCopy_created ((type.picked_lost o).trans ho), Bool.not_true, Bool.false_eq_true,
      if_false]
  · by_cases hfresh : o.tag ∈ c.tags
    · rcases c.add_cases (blockCreat.replaced cfg (type.picked o)) with ⟨-, hadd⟩ | ⟨hnot, -⟩
      · rw [hadd]
        split
        · next heq =>
          subst heq
          obtain ⟨it, hit⟩ := Option.ne_none_iff_exists'.mp fun h => Ctx.get_eq_none.mp h hfresh
          rw [hit]
          rfl
        · rw [Option.or_none]
      · exact absurd hfresh (htag ▸ hnot)
    · have hcreated : (o.created cfg).tag = o.tag := Item.created_tag
      have happend := c.entries_append (o.created cfg) (c.count + 1) (hcreated.symm ▸ hfresh)
      rw [c.add_fresh _ (htag ▸ hfresh), ← Item.created, Item.created_picked, Ctx.get, happend, hcreated,
        lookup_putEntries]
      split
      · next heq =>
        rw [heq, Ctx.get_eq_none.mpr hfresh]
        rfl
      · rw [Option.or_none]
        rfl

/-- The walk along the source behind its first blocks `pre`. -/
theorem divideLoop_get (cfg : Config) (ptr : Nat) (type : DivideType) {dst src : Nat} (hne : dst ≠ src) (pre : List Item)
    {rest : List Item} (s : Contexts)
    (hsrc : (s src).items = pre ++ rest) (htags : (rest.map Item.tag).Nodup) (hlost : ∀ o ∈ rest, o.lost = false) :
    ∃ s', divideLoop cfg ptr (fun _ => (true, true)) dst src type (List.range' pre.length rest.length) s =
        some (s', .ok ()) ∧
      (s' src).items = pre ++ rest.map type.left ∧
      ∀ tag, (s' dst).get tag = ((s dst).get tag).or
        ((((keyed Item.tag rest).lookup tag).filter type.wants).map fun o => o.created cfg) := by
  induction rest generalizing pre s with
  | nil => exact ⟨s, rfl, by simpa using hsrc, fun tag => (Option.or_none).symm⟩
  | cons o rest ih =>
    rw [map_cons, nodup_cons] at htags
    have hget : (s src).items[pre.length]? = some o := by simp [hsrc]
    have hlater : (keyed Item.tag rest).lookup o.tag = none := by
      rw [lookup_eq_none_iff_notMem, keys_keyed]
      exact htags.1
    have hlook (tag : Nat) : (keyed Item.tag (o :: rest)).lookup tag =
        if tag = o.tag then some o else (keyed Item.tag rest).lookup tag := lookup_cons_eq ..
    rw [length_cons, range'_succ, divideLoop]
    simp only [hget]
    by_cases hwants : type.wants o
    · obtain ⟨c₁, hblock, hc₁⟩ := divideBlock_get cfg ptr type (s dst) (hlost o mem_cons_self)
      have hsrc₂ : Function.update (Function.update s src ((s src).setItem pre.length (type.picked o))) dst c₁ src =
          (s src).setItem pre.length (type.picked o) := by
        rw [update_of_ne (Ne.symm hne), update_self]
      have hitems : ((s src).setItem pre.length (type.picked o)).items = (pre ++ [type.picked o]) ++ rest := by
        simp [Ctx.setItem, hsrc]
      obtain ⟨s', hloop, hsrc', hdst'⟩ := ih (pre ++ [type.picked o])
        (Function.update (Function.update s src ((s src).setItem pre.length (type.picked o))) dst c₁)
        (by rw [hsrc₂]; exact hitems) htags.2 (fun o' ho' => hlost o' (mem_cons_of_mem _ ho'))
      refine ⟨s', ?_, ?_, fun tag => ?_⟩
      · rw [if_neg (by simpa using hwants), update_of_ne hne]
        simp only [hblock]
        simpa using hloop
      · simpa [DivideType.left, hwants] using hsrc'
      · rw [hdst', update_self, hc₁, hlook]
        split
        · next heq => rw [heq, hlater, Option.filter_some_pos hwants, Option.filter_none, Option.map_none, Option.or_none]; rfl
        · rw [Option.or_none]
    · have hkeep : pre ++ o :: rest = (pre ++ [o]) ++ rest := by simp
      obtain ⟨s', hloop, hsrc', hdst'⟩ := ih (pre ++ [o]) s (hsrc.trans hkeep) htags.2
        (fun o' ho' => hlost o' (mem_cons_of_mem _ ho'))
      refine ⟨s', ?_, ?_, fun tag => ?_⟩
      · rw [if_pos (by simpa using hwants)]
        simpa using hloop
      · simpa [DivideType.left, hwants] using hsrc'
      · rw [hdst', hlook]
        split
        · next heq => rw [heq, hlater, Option.filter_some_neg (by simpa using hwants), Option.filter_none]
        · rfl

end Dividing

/-- What a division is meant to do: the destination has what was selected, and else what it
had; where the source lost its flag, the block is in the destination. -/
structure Divided (cfg : Config) (type : DivideType) (d s d' s' : Ctx) : Prop where
  taken : ∀ tag o, s.get tag = some o → type.wants o → ∃ it, d'.get tag = some it ∧ it.block.Same cfg o.block
  kept : ∀ tag, (∀ o, s.get tag = some o → ¬ type.wants o) → d'.get tag = d.get tag
  flags : ∀ tag o, s.get tag = some o → ∃ o', s'.get tag = some o' ∧ o'.block = o.block ∧
    (o.divide = true → o'.divide = false → ∃ it, d'.get tag = some it ∧ it.block.Same cfg o.block)

/-- Contexts that are divided as they are meant to: a selected block is in the destination as
it is, or is not there and its type is copied or zero. -/
def Divisible (cfg : Config) (type : DivideType) (d s : Ctx) : Prop :=
  ∀ o ∈ s.items, type.wants o →
    match d.get o.tag with
    | some it => it.block.Same cfg o.block
    | none => cfg.CopiesTypes ∨ o.block.type = 0

section Dividing
variable {cfg : Config} {type : DivideType} {c d s d' s' : Ctx}

theorem divided_iff (hs : s.tags.Nodup) (hs' : s'.items = s.items.map type.left)
    (hd' : ∀ tag, d'.get tag = (d.get tag).or (((s.get tag).filter type.wants).map fun o => o.created cfg)) :
    Divided cfg type d s d' s' ↔ Divisible cfg type d s := by
  -- what the destination has of a selected block
  have hsame (o : Item) (ho : s.get o.tag = some o) (hwants : type.wants o) :
      (∃ it, d'.get o.tag = some it ∧ it.block.Same cfg o.block) ↔
        match d.get o.tag with
        | some it => it.block.Same cfg o.block
        | none => cfg.CopiesTypes ∨ o.block.type = 0 := by
    rw [hd', ho, Option.filter_some_pos hwants]
    cases d.get o.tag with
    | some it => exact ⟨fun ⟨_, h, hsame⟩ => Option.some.inj h ▸ hsame, fun h => ⟨it, rfl, h⟩⟩
    | none =>
      refine Iff.trans ⟨fun ⟨_, h, hsame⟩ => ?_, fun h => ⟨_, rfl, h⟩⟩ Item.created_same_iff
      exact Option.some.inj h ▸ hsame
  constructor
  · intro h o ho hwants
    have hget := Ctx.get_of_mem hs ho
    exact (hsame o hget hwants).mp (h.taken o.tag o hget hwants)
  · intro h
    have htaken (tag : Nat) (o : Item) (ho : s.get tag = some o) (hwants : type.wants o) :
        ∃ it, d'.get tag = some it ∧ it.block.Same cfg o.block := by
      obtain ⟨hmem, rfl⟩ := Ctx.mem_of_get ho
      exact (hsame o ho hwants).mpr (h o hmem hwants)
    refine ⟨htaken, fun tag hnone => ?_, fun tag o ho => ?_⟩
    · have hskip : (s.get tag).filter type.wants = none := by
        rw [Option.filter_eq_none_iff]
        exact fun o ho => hnone o ho
      rw [hd', hskip, Option.map_none, Option.or_none]
    · refine ⟨type.left o, ?_, ?_, fun hdivide hcleared => ?_⟩
      · rw [Ctx.get, Ctx.entries, hs', lookup_keyed_map type.left_tag, ← Ctx.entries, ← Ctx.get, ho]
        rfl
      · unfold DivideType.left
        split
        · exact type.picked_block o
        · rfl
      · refine htaken tag o ho ?_
        by_contra hwants
        rw [DivideType.left, if_neg hwants, hdivide] at hcleared
        cases hcleared

end Dividing

/-- **What a division moves**, in every build, by either flag, with memory and for every two
contexts with unique tags in the source: it is what was selected exactly if the contexts are
divisible. -/
theorem divide_moves (cfg : Config) (ptr : Nat) (s : Contexts) (dst src : Nat) (type : DivideType) (hne : dst ≠ src)
    (hsrc : (s src).tags.Nodup) (hwhole : (s src).Whole) :
    (∃ s', divide cfg ptr (fun _ => (true, true)) dst src type s = some (s', .ok ()) ∧
      Divided cfg type (s dst) (s src) (s' dst) (s' src)) ↔ Divisible cfg type (s dst) (s src) := by
  obtain ⟨s', hloop, hsrc', hdst'⟩ := divideLoop_get cfg ptr type hne [] s (nil_append _).symm hsrc hwhole
  rw [← divided_iff hsrc hsrc' hdst', divide, range_eq_range']
  refine ⟨fun ⟨s'', hloop', h⟩ => ?_, fun h => ⟨s', hloop, h⟩⟩
  cases Option.some.inj (hloop'.symm.trans hloop)
  exact h

/-- A block that is marked for `qm_tlv_divide`. -/
def flagged (tag : Nat) (value : UInt8) : Item := { numbered tag value with divide := true }

def toDivide : Contexts
  | 0 => ⟨[numbered 0x34 5], 1⟩
  | 1 => ⟨[flagged 0x34 6, numbered 0x35 7, flagged 0x36 8], 3⟩
  | _ => {}

theorem divide_moves_two :
    ∃ s', divide (wideTags .two) 4 (fun _ => (true, true)) 2 1 .generic toDivide = some (s', .ok ()) ∧
      Divided (wideTags .two) .generic (toDivide 2) (toDivide 1) (s' 2) (s' 1) :=
  (divide_moves (wideTags .two) 4 toDivide 2 1 .generic (by decide) (by decide) (by decide)).mpr fun _ _ _ =>
    .inl (.inl rfl)

/-- A block whose tag the destination has stays behind, and its flag is gone. -/
theorem divide_leaves_behind :
    ∃ (cfg : Config) (ptr : Nat) (s : Contexts) (dst src : Nat) (type : DivideType), dst ≠ src ∧
      (s dst).tags.Nodup ∧ (s src).tags.Nodup ∧ (s dst).Whole ∧ (s src).Whole ∧
      ¬ ∃ s' ret, divide cfg ptr (fun _ => (true, true)) dst src type s = some (s', ret) ∧
        Divided cfg type (s dst) (s src) (s' dst) (s' src) := by
  refine ⟨wideTags .two, 4, toDivide, 0, 1, .generic, by decide, by decide, by decide, by decide, by decide, ?_⟩
  rintro ⟨s', ret, hdivide, hdivided⟩
  have hget : (divide (wideTags .two) 4 (fun _ => (true, true)) 0 1 .generic toDivide).map
      (fun r => ((r.1 0).get 0x34).map fun it => it.block.value) = some (some [5]) := by decide +kernel
  rw [hdivide] at hget
  obtain ⟨it, hit, hsame⟩ := hdivided.taken 0x34 (flagged 0x34 6) (by decide) rfl
  have hold : ((s' 0).get 0x34).map (fun it => it.block.value) = some [5] := Option.some.inj hget
  rw [hit] at hold
  have hvalue : it.block.value = [5] := Option.some.inj hold
  rw [hsame.value] at hvalue
  exact absurd hvalue (by decide)

end Qumios.Tlv
