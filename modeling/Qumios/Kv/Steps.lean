import Qumios.Kv.Traverse

/-! The calls of the store, on logs.

Each function here is what a function of the manager does to the log its state
stands for, raw operation by raw operation (`put`); `Kv/Refines.lean` proves that it
does exactly this. -/
namespace Qumios.Kv

def splitFirst (p : Entry → Bool) : List Entry → Option (List Entry × Entry × List Entry)
  | [] => none
  | e :: rest =>
    if p e then some ([], e, rest)
    else (splitFirst p rest).map fun r => (e :: r.1, r.2)

variable {p : Entry → Bool} {es : List Entry}

theorem splitFirst_some {before after : List Entry} {e : Entry} (h : splitFirst p es = some (before, e, after)) :
    es = before ++ e :: after ∧ p e = true := by
  induction es generalizing before with
  | nil => cases h
  | cons x rest ih =>
    rw [splitFirst] at h
    split at h
    · next hx =>
      cases h
      exact ⟨rfl, hx⟩
    · obtain ⟨⟨front, back⟩, hr, hcons⟩ := Option.map_eq_some_iff.mp h
      cases hcons
      obtain ⟨hsplit, hp⟩ := ih hr
      exact ⟨congrArg (x :: ·) hsplit, hp⟩

theorem splitFirst_none (h : splitFirst p es = none) : ∀ e ∈ es, p e = false := by
  induction es with
  | nil => simp
  | cons x rest ih =>
    rw [splitFirst] at h
    split at h
    · cases h
    · next hx =>
      exact List.forall_mem_cons.mpr ⟨Bool.eq_false_iff.mpr hx, ih (Option.map_eq_none_iff.mp h)⟩

def itemOf (cfg : Config) (i : Nat) (before : List Entry) (e : Entry) : Item :=
  ⟨e.hdr, posOf cfg i before, e.key.length + e.value.length, e.key ++ e.value⟩

def Mark.soil (m : Mark) : Mark := if m = .used then .dirty else m

theorem Mark.soil_ne_used (m : Mark) : m.soil ≠ .used := by
  cases m <;> decide

theorem Mark.soil_eq_clean {m : Mark} : m.soil = .clean ↔ m = .clean := by
  cases m <;> decide

theorem Mark.soil_eq_blank {m : Mark} : m.soil = .blank ↔ m = .blank := by
  cases m <;> decide

namespace Log

/-- An entry of block `i` is marked deleted, and the block with it (`kv_item_del`). -/
def kill (l : Log) (i : Nat) (before : List Entry) (e : Entry) (after : List Entry) : Log :=
  let l' := l.put i ⟨(l.blk i).mark, before ++ e.dead :: after⟩
  if (l.blk i).mark = .used then l'.put i ⟨.dirty, before ++ e.dead :: after⟩ else l'

/-- An entry behind the others of block `i`, which is the one written to from then on. -/
def append (l : Log) (i : Nat) (e : Entry) : Log :=
  { l.put i ⟨(l.blk i).mark, (l.blk i).entries ++ [e]⟩ with cur := i }

/-- `kv_block_format`. -/
def format (l : Log) (i : Nat) : Log := (l.put i ⟨.blank, []⟩).put i ⟨.clean, []⟩

def holdsKey (key : Bytes) (e : Entry) : Bool := e.live && e.key == key

/-- The search of `kv_item_get`, in the blocks still to go. -/
def findLoop (l : Log) (key : Bytes) : List Nat → Option (Nat × List Entry × Entry × List Entry)
  | [] => none
  | i :: rest =>
    if (l.blk i).mark = .clean then findLoop l key rest
    else
      match splitFirst (holdsKey key) (l.blk i).entries with
      | some r => some (i, r)
      | none => findLoop l key rest

def find (cfg : Config) (l : Log) (key : Bytes) : Option (Nat × List Entry × Entry × List Entry) :=
  findLoop l key (List.range cfg.blkNums)

/-- Block `i` has this entry, between these others. -/
structure At (l : Log) (i : Nat) (before : List Entry) (e : Entry) (after : List Entry) : Prop where
  block : i < l.blocks.length
  split : (l.blk i).entries = before ++ e :: after

/-- Whatever a search finds is a live entry of the key. -/
theorem findLoop_some {l : Log} {key : Bytes} {is : List Nat} {i : Nat} {before after : List Entry} {e : Entry}
    (h : findLoop l key is = some (i, before, e, after)) (his : ∀ j ∈ is, j < l.blocks.length) :
    l.At i before e after ∧ holdsKey key e = true := by
  induction is with
  | nil => cases h
  | cons j rest ih =>
    have hrest := fun k hk => his k (List.mem_cons_of_mem j hk)
    rw [findLoop] at h
    split at h
    · exact ih h hrest
    · split at h
      · next r hr =>
        cases h
        obtain ⟨hsplit, hkey⟩ := splitFirst_some hr
        exact ⟨⟨his _ List.mem_cons_self, hsplit⟩, hkey⟩
      · exact ih h hrest

/-- What a search does not find is in no block but the clean ones. -/
theorem findLoop_none {l : Log} {key : Bytes} {is : List Nat} (h : findLoop l key is = none) :
    ∀ i ∈ is, (l.blk i).mark ≠ .clean → ∀ e ∈ (l.blk i).entries, holdsKey key e = false := by
  induction is with
  | nil => simp
  | cons j rest ih =>
    rw [findLoop] at h
    intro i hi hmark
    split at h
    · next hclean =>
      rcases List.mem_cons.mp hi with rfl | hi
      · exact absurd hclean hmark
      · exact ih h i hi hmark
    · split at h
      · cases h
      · next hnone =>
        rcases List.mem_cons.mp hi with rfl | hi
        · exact splitFirst_none hnone
        · exact ih h i hi hmark

section Calls
variable (cfg : Config)

def space (l : Log) (i : Nat) : Nat := ((l.conc cfg).info i).space

/-- `kv_item_calc_pos`: the block for `len` bytes, marked as in use. -/
def place (l : Log) (len : Nat) : Option (Log × Option Nat) :=
  if len < l.space cfg l.cur then
    some (if l.space cfg l.cur - len < itemMaxLen ∧ l.cleans ≤ kvGcReserved then { l with gc := true } else l, some l.cur)
  else if cfg.blkNums > kvGcReserved + 1 then
    match searchLoop cfg.blkNums (l.conc cfg) l.cur len (cfg.blkNums + 1) (l.cur + 1) with
    | none => none
    | some none => some ({ l with gc := true }, none)
    | some (some i) =>
      if (l.blk i).mark = .clean then some ({ l.put i ⟨.used, (l.blk i).entries⟩ with cur := i }, some i)
      else some ({ l with cur := i }, some i)
  else some ({ l with gc := true }, none)

/-- `kv_item_store`. -/
def store (l : Log) (e : Entry) : Option (Log × Res) :=
  match l.place cfg (e.size cfg) with
  | none => none
  | some (l, none) => some (l, .noSpace)
  | some (l, some i) => some (l.append i e, .ok)

/-- `qm_kv_set`, behind the search for the key and with its memory granted. -/
def setAt (l : Log) (key val : Bytes) : Option (Nat × List Entry × Entry × List Entry) → Option (Log × Res)
  | none => l.store cfg ⟨true, key, val, 0⟩
  | some (i, before, old, _) =>
    if old.value = val then some (l, .ok)
    else
      match l.store cfg ⟨true, key, val, posOf cfg i before⟩ with
      | some (l, .ok) =>
        -- what is behind the old entry may have got the new one
        some (l.kill i before old ((l.blk i).entries.drop (before.length + 1)), .ok)
      | r => r

/-- `qm_kv_del`, behind the search for the key. -/
def delAt (l : Log) : Option (Nat × List Entry × Entry × List Entry) → Log × Res
  | none => (l, .itemNotFound)
  | some (i, before, e, after) => (l.kill i before e after, .ok)

def killFrom (p : Entry → Bool) (i : Nat) : List Entry → List Entry → Log → Log
  | _, [], l => l
  | done, e :: rest, l =>
    if e.live && p e then killFrom p i (done ++ [e.dead]) rest (l.kill i done e rest)
    else killFrom p i (done ++ [e]) rest l

def killWhere (p : Entry → Bool) (l : Log) : Log :=
  (List.range cfg.blkNums).foldl (fun l i => killFrom p i [] (l.blk i).entries l) l

/-- A traversal that copies the live entries to block `g`. -/
def copyTo (g : Nat) (l : Log) (es : List Entry) : Log :=
  es.foldl (fun l e => if e.live then l.append g e else l) l

/-- `qm_kv_gc`. -/
def collect (l : Log) : Log :=
  if l.cleans = 0 then { l with gc := false }
  else
    match gcIndex cfg (l.conc cfg) with
    | none => { l with gc := false }
    | some g =>
      match dirtyLoop cfg (l.conc cfg) l.cur (cfg.blkNums + 1) (l.cur + 1) with
      | none => { l with gc := false }
      | some i =>
        let l' := (copyTo g { l with cur := g } (l.blk i).entries).format i
        { l'.put g ⟨.used, (l'.blk g).entries⟩ with gc := false }

end Calls

end Log

/-! ### Steps -/

/-- What `qm_kv_get` says of a key with this value. -/
def answer (bufferLen : Nat) : Option Bytes → Outcome
  | none => if bufferLen = 0 then .ret .invalidParam else .ret .itemNotFound
  | some v =>
    if bufferLen = 0 then .ret .invalidParam
    else if bufferLen < v.length then .tooSmall v.length
    else .value v

/-- One call, or one collection, without failing allocations. -/
def Log.call (cfg : Config) (l : Log) : Event → Option (Log × Outcome)
  | .set key val =>
    if val.length = 0 ∨ key.1.length > itemMaxKeyLen ∨ val.length > itemMaxValLen then some (l, .ret .invalidParam)
    else (l.setAt cfg key.1 val (l.find cfg key.1)).map fun r => (r.1, .ret r.2)
  | .get key bufferLen => some (l, answer bufferLen ((l.find cfg key.1).map fun x => x.2.2.1.value))
  | .del key => some ((l.delAt (l.find cfg key.1)).1, .ret (l.delAt (l.find cfg key.1)).2)
  | .delByPrefix pre => some (l.killWhere cfg fun e => pre.1.isPrefixOf e.key, .ret .ok)
  | .delAll => some (l.killWhere cfg fun _ => true, .ret .ok)
  | .gc => some (l.collect cfg, .ret .ok)

def Log.exec (cfg : Config) (l : Log) (e : Event) : Option (Log × Outcome) := ({ l with images := [] } : Log).call cfg e

end Qumios.Kv
