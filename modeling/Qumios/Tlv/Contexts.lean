import Qumios.Lib.Run
import Qumios.Tlv.Acceptance

/-! Contexts in use: `qm_tlv_block_add`, `_remove`, `_find`, `qm_tlv_merge`, `qm_tlv_divide`
and `qm_tlv_deserialize` on any number of contexts.

The list of blocks of `Tlv.Block` stands here with what these functions read and write
beside it: the count, the flag that marks a block for `qm_tlv_divide`, and a value that
was lost when the memory for a new one was refused. A pointer to a block of a context is
its position; a block is added to one context only, which owns it from then on.

A tag belongs to one block (`Indexed`): a block is refused whose tag is taken, and
`qm_tlv_merge` looks for the tag before it adds. The look-up cuts the tag to as many bytes
as the *length* of a block has. Where no tag is wider than that, the index is sound
(`contexts_indexed`); where one is, its block is never found, and a merge that finds another
one gives it a tag that is already there (`cut_tag_found_elsewhere`). -/
namespace Qumios.Tlv
open Run Wire List Option

/-! ### The state -/

structure Item where
  block : Block
  divide : Bool := false
  /-- `value.pdata` is null although `len` says that the value is behind it. -/
  lost : Bool := false
  deriving DecidableEq, Repr

/-- `qm_tlv_ctx_t`. -/
structure Ctx where
  items : List Item := []
  count : Int := 0
  deriving DecidableEq, Repr

namespace Ctx

def blocks (c : Ctx) : Context := c.items.map Item.block

def tags (c : Ctx) : List Nat := c.items.map fun it => it.block.tag

/-! ### Adding, removing, finding -/

/-- `qm_tlv_block_add`, with the count. -/
def add (c : Ctx) (it : Item) : Ctx × Except Errno Unit :=
  let marked := { it with block := { it.block with update := true } }
  if c.items = [] then (⟨[marked], c.count + 1⟩, .ok ())
  else if blockCheck c.blocks it.block then (c, .error .einval)
  else (⟨c.items ++ [marked], c.count + 1⟩, .ok ())

/-- `qm_tlv_block_remove`; a pointer to no block of the context changes nothing. -/
def remove (c : Ctx) (i : Nat) : Ctx :=
  if i < c.items.length then ⟨c.items.eraseIdx i, c.count - 1⟩ else c

/-- `qm_tlv_block_find`. The tag is cut by `CONFIG_QM_TLV_LENGTH_BYTE`. -/
def find (cfg : Config) (c : Ctx) (tag : Nat) : Option Nat :=
  c.items.findIdx? fun it => it.block.tag == tag % cfg.lengthByte.limit

def setItem (c : Ctx) (i : Nat) (it : Item) : Ctx := { c with items := c.items.set i it }

end Ctx

/-! ### Copying a block -/

/-- `qm_tlv_pack_bytes` into a block with a value, from a pointer that may be null. The
value of a block is lost with its memory; one that lay in the block itself is overwritten by
the null pointer, which is `ptr` bytes long. -/
def packInto (cfg : Config) (ptr : Nat) (mem : Bool) (it : Item) : Option Bytes → Item × Except Errno Unit
  | none => (it, .error .einval)
  | some bytes =>
    if bytes.length = 0 then (it, .error .einval)
    else if bytes.length ≤ cfg.bufSize || mem then
      ({ it with block := { it.block with value := bytes }, lost := false }, .ok ())
    else if it.block.len > cfg.bufSize then ({ it with lost := true }, .error .enomem)
    else
      let value := List.replicate (min ptr it.block.len) 0 ++ it.block.value.drop ptr
      ({ it with block := { it.block with value := value } }, .error .enomem)

/-- The pointer `qm_tlv_unpack_direct` gives to the value. -/
def Item.bytes (it : Item) : Option Bytes := if it.lost then none else some it.block.value

/-- What `qm_tlv_block_copy` does in front of the value. The type is copied in builds with
DTTV only. -/
def copyHeader (cfg : Config) (dest src : Block) : Block :=
  let dest := if dest.tag ≠ src.tag then { dest with tag := src.tag, update := true } else dest
  let dest := if cfg.dttv.isSome && dest.type ≠ src.type then { dest with type := src.type, update := true } else dest
  if cfg.dttv.isSome && cfg.dttvForceUpdate && src.type &&& 0x80 ≠ 0 then
    { dest with type := realTypeId src.type, update := true }
  else dest

/-- `qm_tlv_block_copy`; `none` where it compares through a null pointer. -/
def blockCopy (cfg : Config) (ptr : Nat) (mem : Bool) (dest src : Item) : Option (Item × Except Errno Unit) :=
  let dest := { dest with block := copyHeader cfg dest.block src.block }
  let packed :=
    let (it, ret) := packInto cfg ptr mem dest src.bytes
    ({ it with block := { it.block with update := true } }, ret)
  if dest.block.len = src.block.len then
    if dest.lost || src.lost then none
    else if dest.block.value ≠ src.block.value then some packed
    else some (dest, .ok ())
  else some packed

/-- `qm_tlv_block_creat`. -/
def blockCreat : Item := ⟨⟨0, 0, [], false, false⟩, false, false⟩

/-! ### Loops -/

/-- The loop of the deserializers, on a context with its count. -/
def Ctx.deserializeLoop (cfg : Config) (f : Format) (mem : Allocator) :
    Nat → Nat → Bytes → Ctx → Ctx × Except Errno Unit
  | 0, _, _, c => (c, .ok ())
  | rounds + 1, i, rest, c =>
    if rest = [] then (c, .ok ())
    else
      match readBlock cfg f (mem i) rest with
      | .error e => (c, .error e)
      | .ok (b, rest) =>
        match c.add ⟨b, false, false⟩ with
        | (c, .error e) => (c, .error e)
        | (c, .ok ()) => Ctx.deserializeLoop cfg f mem rounds (i + 1) rest c

/-- `qm_tlv_deserialize`. -/
def Ctx.deserialize (cfg : Config) (mem : Allocator) (c : Ctx) (msg : Bytes) (type : BlockType) :
    Ctx × Except Errno Unit :=
  match cfg.format type with
  | none => (c, .error .einval)
  | some f => if msg.length = 0 then (c, .error .einval) else Ctx.deserializeLoop cfg f mem msg.length 0 msg c

/-- `qm_tlv_merge` on one block of the source. -/
def mergeBlock (cfg : Config) (ptr : Nat) (mem : Bool × Bool) (c : Ctx) (src : Item) :
    Option (Ctx × Except Errno Unit) :=
  match c.find cfg src.block.tag with
  | some j =>
    match blockCopy cfg ptr mem.2 (c.items.getD j blockCreat) src with
    | none => none
    | some (it, ret) => some (c.setItem j it, ret)
  | none =>
    if !mem.1 then some (c, .error .enomem)
    else
      match blockCopy cfg ptr mem.2 blockCreat src with
      | none => none
      | some (_, .error e) => some (c, .error e)
      | some (it, .ok ()) => some (c.add it)

/-- `qm_tlv_divide_type_t`. -/
inductive DivideType where
  | generic
  | update
  deriving DecidableEq, Repr

def DivideType.wants : DivideType → Item → Bool
  | .generic, it => it.divide
  | .update, it => it.block.update

/-- The block of the source once `qm_tlv_divide` has picked it. -/
def DivideType.picked : DivideType → Item → Item
  | .generic, it => { it with divide := false }
  | .update, it => it

/-- `qm_tlv_divide` with the copy of one block. What `qm_tlv_block_add` returns is not looked at. -/
def divideBlock (cfg : Config) (ptr : Nat) (mem : Bool × Bool) (c : Ctx) (src : Item) :
    Option (Ctx × Except Errno Unit) :=
  if !mem.1 then some (c, .error .enomem)
  else
    match blockCopy cfg ptr mem.2 blockCreat src with
    | none => none
    | some (_, .error e) => some (c, .error e)
    | some (it, .ok ()) => some ((c.add it).1, .ok ())

/-- All the contexts there are, by number. -/
abbrev Contexts := Nat → Ctx

/-- The walk of `qm_tlv_merge` along the source. It never lengthens a list it walks along: a
copy has the tag of its original, and a context refuses a copy of its own block. -/
def mergeLoop (cfg : Config) (ptr : Nat) (mem : Allocator) (dst src : Nat) :
    List Nat → Contexts → Option (Contexts × Except Errno Unit)
  | [], s => some (s, .ok ())
  | i :: rest, s =>
    match (s src).items[i]? with
    | none => some (s, .ok ())
    | some it =>
      match mergeBlock cfg ptr (mem i) (s dst) it with
      | none => none
      | some (c, .error e) => some (Function.update s dst c, .error e)
      | some (c, .ok ()) => mergeLoop cfg ptr mem dst src rest (Function.update s dst c)

/-- `qm_tlv_merge`. -/
def merge (cfg : Config) (ptr : Nat) (mem : Allocator) (dst src : Nat) (s : Contexts) :
    Option (Contexts × Except Errno Unit) :=
  mergeLoop cfg ptr mem dst src (List.range (s src).items.length) s

def divideLoop (cfg : Config) (ptr : Nat) (mem : Allocator) (dst src : Nat) (type : DivideType) :
    List Nat → Contexts → Option (Contexts × Except Errno Unit)
  | [], s => some (s, .ok ())
  | i :: rest, s =>
    match (s src).items[i]? with
    | none => some (s, .ok ())
    | some it =>
      if !type.wants it then divideLoop cfg ptr mem dst src type rest s
      else
        let s := Function.update s src ((s src).setItem i (type.picked it))
        match divideBlock cfg ptr (mem i) (s dst) (type.picked it) with
        | none => none
        | some (c, .error e) => some (Function.update s dst c, .error e)
        | some (c, .ok ()) => divideLoop cfg ptr mem dst src type rest (Function.update s dst c)

/-- `qm_tlv_divide`. -/
def divide (cfg : Config) (ptr : Nat) (mem : Allocator) (dst src : Nat) (type : DivideType) (s : Contexts) :
    Option (Contexts × Except Errno Unit) :=
  divideLoop cfg ptr mem dst src type (List.range (s src).items.length) s

/-! ### The machine -/

inductive Event where
  /-- A block the caller made is added to context `c`. -/
  | add (c : Nat) (it : Item)
  | remove (c i : Nat)
  | merge (dst src : Nat) (mem : Allocator)
  | divide (dst src : Nat) (type : DivideType) (mem : Allocator)
  | deserialize (c : Nat) (msg : Bytes) (type : BlockType) (mem : Allocator)
  /-- `qm_tlv_block_divide` and `qm_tlv_block_update` on a block of a context. -/
  | flag (c i : Nat) (divide update : Bool)

def Item.inStruct (cfg : Config) (it : Item) : Item :=
  { it with block := { it.block with tag := it.block.tag % cfg.tagByte.limit } }

def Item.flagged (it : Item) (divide update : Bool) : Item :=
  { it with block := { it.block with update := update }, divide := divide }

def step (cfg : Config) (ptr : Nat) (s : Contexts) : Event → Option (Contexts × Except Errno Unit)
  | .add c it =>
    let (ctx, ret) := (s c).add (it.inStruct cfg)
    some (Function.update s c ctx, ret)
  | .remove c i => some (Function.update s c ((s c).remove i), .ok ())
  | .merge dst src mem => merge cfg ptr mem dst src s
  | .divide dst src type mem => divide cfg ptr mem dst src type s
  | .deserialize c msg type mem =>
    let (ctx, ret) := (s c).deserialize cfg mem msg type
    some (Function.update s c ctx, ret)
  | .flag c i divide update =>
    match (s c).items[i]? with
    | none => some (s, .error .einval)
    | some it => some (Function.update s c ((s c).setItem i (it.flagged divide update)), .ok ())

def machine (cfg : Config) (ptr : Nat) : Machine Contexts Event (Except Errno Unit) := ⟨step cfg ptr⟩

def noBlocks : Contexts := fun _ => {}

/-! ### The lists beside the counts -/

section Lists
variable {cfg : Config} {ptr : Nat} {c c' : Ctx} {it : Item}

/-- A context takes a block or is left as it is. -/
theorem Ctx.add_cases (c : Ctx) (it : Item) :
    (it.block.tag ∈ c.tags ∧ c.add it = (c, .error .einval)) ∨
    (it.block.tag ∉ c.tags ∧
      c.add it = (⟨c.items ++ [{ it with block := { it.block with update := true } }], c.count + 1⟩, .ok ())) := by
  have hcheck : blockCheck c.blocks it.block = true ↔ it.block.tag ∈ c.tags := by
    simp [blockCheck, blocks, tags]
  unfold add
  by_cases hempty : c.items = []
  · refine .inr ⟨?_, ?_⟩
    · simp [tags, hempty]
    · rw [hempty]
      rfl
  · rw [if_neg hempty]
    by_cases hmem : it.block.tag ∈ c.tags
    · exact .inl ⟨hmem, if_pos (hcheck.mpr hmem)⟩
    · exact .inr ⟨hmem, if_neg (hcheck.not.mpr hmem)⟩

theorem packInto_tag (mem : Bool) (it : Item) (bytes : Option Bytes) :
    (packInto cfg ptr mem it bytes).1.block.tag = it.block.tag := by
  unfold packInto
  repeat' split
  all_goals rfl

theorem copyHeader_tag (dest src : Block) : (copyHeader cfg dest src).tag = src.tag := by
  unfold copyHeader
  dsimp only
  by_cases htag : dest.tag = src.tag
  · rw [if_neg (not_not.mpr htag)]
    repeat' split
    all_goals exact htag
  · repeat' split
    all_goals rfl

theorem blockCopy_tag {mem : Bool} {dest src : Item} {ret : Except Errno Unit}
    (h : blockCopy cfg ptr mem dest src = some (it, ret)) : it.block.tag = src.block.tag := by
  have hpacked : ∀ bytes, (packInto cfg ptr mem { dest with block := copyHeader cfg dest.block src.block }
      bytes).1.block.tag = src.block.tag := fun bytes =>
    (packInto_tag mem _ bytes).trans (copyHeader_tag dest.block src.block)
  unfold blockCopy at h
  dsimp only at h
  repeat' split at h
  all_goals cases h
  · exact hpacked _
  · exact copyHeader_tag dest.block src.block
  · exact hpacked _

end Lists

/-! ### The index -/

/-- Tags are pairwise distinct, each block is found by its own, and the count is right. -/
structure Ctx.Indexed (cfg : Config) (c : Ctx) : Prop where
  distinct : c.tags.Nodup
  found : ∀ i it, c.items[i]? = some it → c.find cfg it.block.tag = some i
  count : c.count = c.items.length

/-- What the operations keep: no tag is cut by the look-up. -/
structure Ctx.Sound (cfg : Config) (c : Ctx) : Prop where
  distinct : c.tags.Nodup
  narrow : ∀ tag ∈ c.tags, tag < cfg.lengthByte.limit
  count : c.count = c.items.length

section Index
variable {cfg : Config} {ptr : Nat} {c c' : Ctx} {it : Item}

theorem Ctx.Sound.indexed (h : c.Sound cfg) : c.Indexed cfg := by
  refine ⟨h.distinct, fun i it hi => ?_, h.count⟩
  obtain ⟨hlt, hget⟩ := List.getElem?_eq_some_iff.mp hi
  have htag : it.block.tag ∈ c.tags := List.mem_map.mpr ⟨it, hget ▸ List.getElem_mem hlt, rfl⟩
  rw [Ctx.find, Nat.mod_eq_of_lt (h.narrow _ htag), List.findIdx?_eq_some_iff_getElem]
  refine ⟨hlt, by simp [hget], fun j hji => ?_⟩
  -- an earlier block with the same tag would be a second one
  have hj : j < c.items.length := hji.trans hlt
  intro heq
  have hsame : c.tags[j]? = c.tags[i]? := by
    simp only [Ctx.tags, List.getElem?_map, List.getElem?_eq_getElem hj, hi, map_some, beq_iff_eq.mp heq]
  exact Nat.ne_of_lt hji ((List.getElem?_inj (by simpa [Ctx.tags] using hj) h.distinct).mp hsame)

theorem Ctx.find_tag {tag j : Nat} (htag : tag < cfg.lengthByte.limit) (h : c.find cfg tag = some j) :
    c.tags[j]? = some tag := by
  rw [Ctx.find, Nat.mod_eq_of_lt htag] at h
  obtain ⟨hlt, heq, -⟩ := findIdx?_eq_some_iff_getElem.mp h
  simp only [Ctx.tags, getElem?_map, getElem?_eq_getElem hlt, map_some, beq_iff_eq.mp heq]

theorem Ctx.Sound.add (h : c.Sound cfg) (hit : it.block.tag < cfg.lengthByte.limit) : (c.add it).1.Sound cfg := by
  rcases c.add_cases it with ⟨-, heq⟩ | ⟨hfresh, heq⟩
  · rw [heq]
    exact h
  · rw [heq]
    have htags : (⟨c.items ++ [{ it with block := { it.block with update := true } }], c.count + 1⟩ : Ctx).tags =
        c.tags ++ [it.block.tag] := by
      simp [Ctx.tags]
    refine ⟨?_, ?_, ?_⟩
    · rw [htags]
      exact nodup_append.mpr ⟨h.distinct, nodup_singleton _, fun tag htag tag' htag' heq' =>
        hfresh (by rw [mem_singleton.mp htag'] at heq'; exact heq' ▸ htag)⟩
    · rw [htags]
      exact forall_snoc h.narrow hit
    · rw [h.count, length_append]
      rfl

theorem Ctx.Sound.remove (h : c.Sound cfg) (i : Nat) : (c.remove i).Sound cfg := by
  unfold Ctx.remove
  split
  · next hlt =>
    have hsub : ((c.items.eraseIdx i).map fun it => it.block.tag).Sublist c.tags :=
      (eraseIdx_sublist _ _).map _
    refine ⟨h.distinct.sublist hsub, fun tag htag => h.narrow tag (hsub.subset htag), ?_⟩
    show c.count - 1 = ((c.items.eraseIdx i).length : Int)
    rw [h.count, length_eraseIdx_of_lt hlt]
    omega
  · exact h

variable {i : Nat} {mem : Bool × Bool} {ret : Except Errno Unit}

theorem Ctx.Sound.setItem (h : c.Sound cfg) (htag : c.tags[i]? = some it.block.tag) : (c.setItem i it).Sound cfg := by
  have htags : (c.setItem i it).tags = c.tags := by
    rw [Ctx.tags, Ctx.setItem, List.map_set]
    obtain ⟨hlt, hget⟩ := List.getElem?_eq_some_iff.mp htag
    rw [← hget]
    exact List.set_getElem_self hlt
  refine ⟨htags ▸ h.distinct, htags ▸ h.narrow, ?_⟩
  rw [Ctx.setItem, h.count, List.length_set]

theorem tags_of_getElem? (h : c.items[i]? = some it) : c.tags[i]? = some it.block.tag := by
  rw [Ctx.tags, getElem?_map, h]
  rfl

theorem Ctx.Sound.narrow_of_getElem? (h : c.Sound cfg) (hi : c.items[i]? = some it) :
    it.block.tag < cfg.lengthByte.limit :=
  h.narrow _ (mem_of_getElem? (tags_of_getElem? hi))

section
variable (h : c.Sound cfg) (hit : it.block.tag < cfg.lengthByte.limit)
include h hit

theorem mergeBlock_sound (hm : mergeBlock cfg ptr mem c it = some (c', ret)) : c'.Sound cfg := by
  unfold mergeBlock at hm
  split at hm
  · next hfind =>
    split at hm
    · cases hm
    · next hcopy =>
      cases hm
      apply h.setItem
      rw [blockCopy_tag hcopy]
      exact Ctx.find_tag hit hfind
  · split at hm
    · cases hm
      exact h
    · split at hm
      · cases hm
      · cases hm
        exact h
      · next hcopy =>
        have hadd := h.add ((blockCopy_tag hcopy).symm ▸ hit)
        rwa [Option.some.inj hm] at hadd

theorem divideBlock_sound (hd : divideBlock cfg ptr mem c it = some (c', ret)) : c'.Sound cfg := by
  unfold divideBlock at hd
  repeat' split at hd
  · cases hd
    exact h
  · cases hd
  · cases hd
    exact h
  · next hcopy =>
    cases hd
    exact h.add ((blockCopy_tag hcopy).symm ▸ hit)
end

end Index

/-! ### Tags in messages -/

theorem readBlock_lt {cfg : Config} {type : BlockType} {w : Widths} {f : Format} (hw : cfg.widths type = some w)
    (hf : cfg.format type = some f) {mem : Bool × Bool} {rest rest' : Bytes} {b : Block}
    (hread : readBlock cfg f mem rest = .ok (b, rest')) : b.tag < w.tag.limit :=
  (readBlock_eq_ok hw hf hread).1.tag

/-! ### Every run -/

/-- No tag enters that the look-up cuts: a block is added with a tag of the length's bytes, a
message is read in a format whose tags are not wider. -/
def Narrow (cfg : Config) : Event → Prop
  | .add _ it => (it.inStruct cfg).block.tag < cfg.lengthByte.limit
  | .deserialize _ _ type _ => ∀ w, cfg.widths type = some w → w.tag.limit ≤ cfg.lengthByte.limit
  | _ => True

section Runs
variable {cfg : Config} {ptr : Nat} {s s' : Contexts} {ret : Except Errno Unit}

def AllSound (cfg : Config) (s : Contexts) : Prop := ∀ c, (s c).Sound cfg

theorem AllSound.update (h : AllSound cfg s) (c : Nat) {ctx : Ctx} (hctx : ctx.Sound cfg) :
    AllSound cfg (Function.update s c ctx) := by
  intro c'
  by_cases heq : c' = c
  · subst heq
    rw [Function.update_self]
    exact hctx
  · rw [Function.update_of_ne heq]
    exact h c'

variable {mem : Allocator}

theorem deserializeLoop_sound {f : Format} {rounds i : Nat} {rest : Bytes} {c : Ctx}
    (hlt : ∀ mem rest b rest', readBlock cfg f mem rest = .ok (b, rest') → b.tag < cfg.lengthByte.limit)
    (h : c.Sound cfg) : (c.deserializeLoop cfg f mem rounds i rest).1.Sound cfg := by
  induction rounds generalizing i rest c with
  | zero => exact h
  | succ rounds ih =>
    rw [Ctx.deserializeLoop]
    split
    · exact h
    · split
      · exact h
      · next b rest' hread =>
        have hadd : (c.add ⟨b, false, false⟩).1.Sound cfg := h.add (hlt _ _ _ _ hread)
        split
        · next heq =>
          rw [heq] at hadd
          exact hadd
        · next heq =>
          rw [heq] at hadd
          exact ih hadd

theorem deserialize_sound {msg : Bytes} {type : BlockType} {c : Ctx} (h : c.Sound cfg)
    (hwidth : ∀ w, cfg.widths type = some w → w.tag.limit ≤ cfg.lengthByte.limit) :
    (c.deserialize cfg mem msg type).1.Sound cfg := by
  unfold Ctx.deserialize
  split
  · exact h
  · next f hf =>
    split
    · exact h
    · obtain ⟨w, hw⟩ : ∃ w, cfg.widths type = some w := by
        cases type <;> simp only [Config.format, map_eq_some_iff] at hf <;>
          exact hf.imp fun w hw => hw.1
      exact deserializeLoop_sound (fun mem rest b rest' hread =>
        (readBlock_lt hw hf hread).trans_le (hwidth w hw)) h

theorem mergeLoop_sound {dst src : Nat} {is : List Nat} (h : AllSound cfg s)
    (hm : mergeLoop cfg ptr mem dst src is s = some (s', ret)) : AllSound cfg s' := by
  induction is generalizing s with
  | nil =>
    cases hm
    exact h
  | cons i rest ih =>
    rw [mergeLoop] at hm
    split at hm
    · cases hm
      exact h
    · next hget =>
      have hit := (h src).narrow_of_getElem? hget
      split at hm
      · cases hm
      · next hblock =>
        cases hm
        exact h.update dst (mergeBlock_sound (h dst) hit hblock)
      · next hblock => exact ih (h.update dst (mergeBlock_sound (h dst) hit hblock)) hm

theorem DivideType.picked_tag (type : DivideType) (it : Item) : (type.picked it).block.tag = it.block.tag := by
  cases type <;> rfl

theorem divideLoop_sound {dst src : Nat} {type : DivideType} {is : List Nat} (h : AllSound cfg s)
    (hd : divideLoop cfg ptr mem dst src type is s = some (s', ret)) : AllSound cfg s' := by
  induction is generalizing s with
  | nil =>
    cases hd
    exact h
  | cons i rest ih =>
    rw [divideLoop] at hd
    split at hd
    · cases hd
      exact h
    · next it hget =>
      have hit : (type.picked it).block.tag < cfg.lengthByte.limit :=
        type.picked_tag it ▸ (h src).narrow_of_getElem? hget
      have hset : ((s src).setItem i (type.picked it)).Sound cfg :=
        (h src).setItem (type.picked_tag it ▸ tags_of_getElem? hget)
      have hpicked := h.update src hset
      split at hd
      · exact ih h hd
      · dsimp only at hd
        split at hd
        · cases hd
        · next hblock =>
          cases hd
          exact hpicked.update dst (divideBlock_sound (hpicked dst) hit hblock)
        · next hblock => exact ih (hpicked.update dst (divideBlock_sound (hpicked dst) hit hblock)) hd

theorem step_sound {e : Event} (h : AllSound cfg s) (he : Narrow cfg e) (hs : step cfg ptr s e = some (s', ret)) :
    AllSound cfg s' := by
  cases e with
  | add c it =>
    cases hs
    exact h.update c ((h c).add he)
  | remove c i =>
    cases hs
    exact h.update c ((h c).remove i)
  | merge dst src mem => exact mergeLoop_sound h hs
  | divide dst src type mem => exact divideLoop_sound h hs
  | deserialize c msg type mem =>
    cases hs
    exact h.update c (deserialize_sound (h c) he)
  | flag c i divide update =>
    simp only [step] at hs
    split at hs
    · cases hs
      exact h
    · next it hget =>
      cases hs
      have htag : (s c).tags[i]? = some it.block.tag := tags_of_getElem? hget
      have hset : ((s c).setItem i (it.flagged divide update)).Sound cfg := (h c).setItem htag
      exact h.update c hset

theorem noBlocks_sound (cfg : Config) : AllSound cfg noBlocks := fun _ =>
  ⟨nodup_nil, fun _ htag => (not_mem_nil htag).elim, rfl⟩

end Runs

/-- **The contexts stay indexed.** After any run of additions, removals, merges, divisions and
deserializations, also those that fail part way, in which no tag is wider than the length of
a block, every context has distinct tags, finds each block by its tag and counts its blocks. -/
theorem contexts_indexed (cfg : Config) (ptr : Nat) (events : List Event) (s : Contexts)
    (trace : List (Event × Except Errno Unit)) (hnarrow : ∀ e ∈ events, Narrow cfg e)
    (hr : (machine cfg ptr).run noBlocks events = some (s, trace)) (c : Nat) : (s c).Indexed cfg := by
  have hmeets := (machine cfg ptr).meets_and hnarrow ((machine cfg ptr).meets_true noBlocks events)
  have hall : AllSound cfg s :=
    (machine cfg ptr).run_invariant _ (fun _ s => AllSound cfg s)
      (fun _ s e s' ret h he hs => step_sound h he.1 hs) (noBlocks_sound cfg) hmeets hr
  exact (hall c).indexed

/-- A build of one format, with tags of two bytes and lengths of two or one. -/
def wideTags (length : Width) : Config where
  tlv := none
  dttv := some ⟨.two, length⟩
  ttlv := none
  dttvForceUpdate := false
  int16 := true
  int32 := true
  int64 := false
  float32 := true
  float64 := false
  bytes := true
  bufSize := 8

def tagged (tag : Nat) : Item := ⟨⟨tag, 2, [5], false, false⟩, false, false⟩

def mergeTagged : List Event :=
  [.add 0 (tagged 0x34), .add 0 (tagged 0x1234), .add 1 (tagged 0x1234), .merge 0 1 fun _ => (true, true)]

theorem contexts_indexed_merged :
    ∃ s trace, (machine (wideTags .two) 4).run noBlocks mergeTagged = some (s, trace) ∧
      ∀ c, (s c).Indexed (wideTags .two) := by
  have hrun : ((machine (wideTags .two) 4).run noBlocks mergeTagged).isSome = true := by decide
  obtain ⟨⟨s, trace⟩, hr⟩ := isSome_iff_exists.mp hrun
  have hnarrow : ∀ e ∈ mergeTagged, Narrow (wideTags .two) e := by
    intro e he
    simp only [mergeTagged, mem_cons, not_mem_nil, or_false] at he
    rcases he with rfl | rfl | rfl | rfl
    · show 0x34 < 65536
      decide
    · show 0x1234 < 65536
      decide
    · show 0x1234 < 65536
      decide
    · trivial
  exact ⟨s, trace, hr, contexts_indexed (wideTags .two) 4 mergeTagged s trace hnarrow hr⟩

/-- **A cut tag is found elsewhere**: with lengths of one byte, the look-up for the tag `0x1234`
finds the block `0x34`, and the merge gives it the tag that another block has. -/
theorem cut_tag_found_elsewhere :
    (¬ ∀ (cfg : Config) (ptr : Nat) (events : List Event) (s : Contexts) (trace : List (Event × Except Errno Unit)),
      (machine cfg ptr).run noBlocks events = some (s, trace) → ∀ c, (s c).tags.Nodup) ∧
    ¬ ∀ (cfg : Config) (ptr : Nat) (events : List Event) (s : Contexts) (trace : List (Event × Except Errno Unit)),
      (machine cfg ptr).run noBlocks events = some (s, trace) →
      ∀ c i it, (s c).items[i]? = some it → (s c).find cfg it.block.tag = some i := by
  constructor
  · intro hall
    have hrun : ((machine (wideTags .one) 4).run noBlocks mergeTagged).map (fun r => (r.1 0).tags) =
        some [0x1234, 0x1234] := by decide
    obtain ⟨⟨s, trace⟩, hr, htags⟩ := map_eq_some_iff.mp hrun
    have hnodup := hall (wideTags .one) 4 mergeTagged s trace hr 0
    rw [show (s 0).tags = _ from htags] at hnodup
    exact absurd hnodup (by decide)
  · intro hall
    have hrun : ((machine (wideTags .one) 4).run noBlocks [.add 0 (tagged 0x1234)]).map
        (fun r => ((r.1 0).items[0]?.map fun it => it.block.tag, (r.1 0).find (wideTags .one) 0x1234)) =
        some (some 0x1234, none) := by decide
    obtain ⟨⟨s, trace⟩, hr, hend⟩ := map_eq_some_iff.mp hrun
    obtain ⟨hitem, hfind⟩ := Prod.mk.inj hend
    obtain ⟨it, hget, htag⟩ := map_eq_some_iff.mp hitem
    have hfound := hall (wideTags .one) 4 [.add 0 (tagged 0x1234)] s trace hr 0 0 it hget
    rw [htag, hfind] at hfound
    cases hfound

end Qumios.Tlv
