import Qumios.Kv.Item
import Qumios.Lib.Run

/-! The key-value store of `qm_kvmgr.c`.

The state is the flash and `g_kv_mgr`, with the image the flash had after each raw
write or erase of the call at hand. The flash is NOR and its operations do not fail;
`raw_read`, `raw_write` and `raw_erase` return 0 whatever the driver says. What the
allocator answers is a parameter, site by site: no site is met twice in one call.

A call is one step: every one of them holds the mutex from its first look at the
store to its last. A `qm_kv_set` that finds a collection due waits for it in front
of the mutex, so it comes behind the collection in the order of steps. -/
namespace Qumios.Kv
open Nor Run

/-- `block_info_t`. -/
structure BlockInfo where
  space : Nat
  state : UInt8
  deriving DecidableEq, Repr

/-- The flash, and `kv_mgr_t` without its semaphore and mutex. -/
@[ext]
structure State where
  flash : Flash
  gcTriggered : Bool := false
  cleanBlkNums : Nat := 0
  writePos : Nat := 0
  blockInfo : List BlockInfo
  /-- History: the flash after each raw operation of this call. -/
  images : List Flash := []
  /-- What the list command has printed. -/
  printed : List (Bytes × Bytes) := []

inductive Res where
  | ok
  | noSpace
  | invalidParam
  | mallocFailed
  | itemNotFound
  deriving DecidableEq, Repr

/-- The calls of `qm_malloc`. -/
inductive Alloc where
  /-- The `kv_item_t` of a traversal at a position. -/
  | item (pos : Nat)
  /-- The buffer a callback reads the item at a position into. -/
  | buffer (pos : Nat)
  | originKey (pos : Nat)
  | newKey (pos : Nat)
  /-- The buffer `kv_item_store` builds the item in. -/
  | store
  deriving DecidableEq, Repr

abbrev Mem := Alloc → Bool

namespace State

def info (s : State) (i : Nat) : BlockInfo := s.blockInfo.getD i ⟨0, 0⟩

def setState (s : State) (i : Nat) (state : UInt8) : State :=
  { s with blockInfo := s.blockInfo.modify i fun b => { b with state := state } }

def setSpace (s : State) (i : Nat) (space : Nat) : State :=
  { s with blockInfo := s.blockInfo.modify i fun b => { b with space := space } }

end State

/-! ### Raw operations -/

def rawWrite (s : State) (pos : Nat) (data : Bytes) : State :=
  { s with flash := program s.flash pos data, images := s.images ++ [program s.flash pos data] }

def rawErase (s : State) (pos : Nat) : State :=
  { s with flash := erase blkSize s.flash (pos / blkSize), images := s.images ++ [erase blkSize s.flash (pos / blkSize)] }

def triggerGc (s : State) : State := { s with gcTriggered := true }

def kvStateSet (s : State) (pos : Nat) (state : UInt8) : State := rawWrite s (u16 pos + 1) [state]

def kvBlockFormat (s : State) (index : Nat) : State :=
  let s := rawErase s (u16 (index * blkSize))
  let s := rawWrite s (u16 (index * blkSize)) [blkMagicNum, BlkState.clean, 0, 0]
  { s with
    blockInfo := s.blockInfo.set index ⟨blkSize - blkHeaderSize, BlkState.clean⟩
    cleanBlkNums := s.cleanBlkNums + 1 }

/-! ### Room for an item -/

/-- The loop of `kv_item_calc_pos`, at most `rounds` times around: the block with room,
`some none` if the loop ends without one, `none` if it still runs. -/
def searchLoop (blkNums : Nat) (s : State) (blkIndex len : Nat) : Nat → Nat → Option (Option Nat)
  | 0, _ => none
  | rounds + 1, i =>
    if i = blkIndex then some none
    else
      let i := if i = blkNums then 0 else i
      if len < (s.info i).space then some (some i) else searchLoop blkNums s blkIndex len rounds (i + 1)

section Calls
variable (cfg : Config)

/-- `kv_item_calc_pos`, with 0 for no room; `none` if it does not return. -/
def kvItemCalcPos (s : State) (len : Nat) : Option (State × Nat) :=
  let blkIndex := s.writePos / blkSize
  let space := (s.info blkIndex).space
  if len < space then
    some (if space - len < itemMaxLen ∧ s.cleanBlkNums ≤ kvGcReserved then triggerGc s else s, s.writePos)
  else if cfg.blkNums > kvGcReserved + 1 then
    match searchLoop cfg.blkNums s blkIndex len (cfg.blkNums + 1) (blkIndex + 1) with
    | none => none
    | some none => some (triggerGc s, 0)
    | some (some i) =>
      let s := { s with writePos := u16 (i * blkSize + blkSize - (s.info i).space) }
      if (s.info i).state = BlkState.clean then
        let s := (kvStateSet s (i * blkSize) BlkState.used).setState i BlkState.used
        some ({ s with cleanBlkNums := s.cleanBlkNums - 1 }, s.writePos)
      else some (s, s.writePos)
  else some (triggerGc s, 0)

/-! ### Items -/

/-- `kv_item_t`. -/
structure Item where
  hdr : ItemHdr
  pos : Nat
  len : Nat
  store : Bytes := []

def readHdr (f : Flash) (pos : Nat) : ItemHdr := ItemHdr.ofBytes (read f pos itemHeaderSize)

/-- The end of `kv_item_del`: the item at an offset is marked, and its block with it. -/
def kvItemMark (s : State) (offset : Nat) : State :=
  let s := kvStateSet s offset ItemState.delete
  let i := offset / blkSize
  if (s.info i).state = BlkState.used then
    (kvStateSet s (i * blkSize) BlkState.dirty).setState i BlkState.dirty
  else s

/-- `kv_item_del` in the mode `KV_SELF_REMOVE`. -/
def kvItemDelSelf (s : State) (item : Item) : State := kvItemMark s item.pos

/-- `kv_item_del` in the mode `KV_ORIG_REMOVE`: only an item of the same key is marked.
Its only caller does not look at the result. -/
def kvItemDelOrig (mem : Mem) (s : State) (item : Item) : State :=
  let offset := item.hdr.originOff
  let hdr := readHdr s.flash offset
  if hdr.magic ≠ itemMagicNum ∨ hdr.state ≠ ItemState.normal ∨ hdr.keyLen ≠ item.hdr.keyLen then s
  else if !mem (.originKey item.pos) || !mem (.newKey item.pos) then s
  else if read s.flash (offset + itemHeaderSize) hdr.keyLen ≠ read s.flash (item.pos + itemHeaderSize) hdr.keyLen then s
  else kvItemMark s offset

/-! ### Traversal -/

/-- What a callback returns: `RES_OK`, `RES_CONT`, or an error. -/
inductive Verdict where
  | found (item : Item)
  | cont
  | failed

/-- A block with something deleted in it is no longer `USED`. -/
def noteDirty (s : State) (blkIndex : Nat) : State :=
  if (s.info blkIndex).state = BlkState.used then
    (kvStateSet s (blkIndex * blkSize) BlkState.dirty).setState blkIndex BlkState.dirty
  else s

/-- The last lines of `kv_item_traverse`. -/
def noteSpace (s : State) (blkIndex pos : Nat) : State :=
  let endPos := u16 (blkIndex * blkSize + blkSize)
  s.setSpace blkIndex (if pos < endPos then endPos - pos else itemHeaderSize)

/-- The loop of `kv_item_traverse`. Every round is a header further, so a block is
through after as many rounds as it has headers. -/
def traverseLoop (mem : Mem) (func : Item → State → State × Verdict) (blkIndex : Nat) :
    Nat → Nat → State → State × Option Item
  | 0, _, s => (s, none)
  | rounds + 1, pos, s =>
    let next (pos : Nat) (s : State) : State × Option Item :=
      if pos + itemHeaderSize < u16 (blkIndex * blkSize + blkSize) then
        traverseLoop mem func blkIndex rounds pos s
      else (noteSpace s blkIndex pos, none)
    if !mem (.item pos) then (s, none)
    else
      let hdr := readHdr s.flash pos
      if hdr.magic ≠ itemMagicNum ∧ hdr.magic = 0xFF ∧ hdr.state = 0xFF then (noteSpace s blkIndex pos, none)
      else if hdr.magic ≠ itemMagicNum ∨ hdr.valLen > itemMaxValLen ∨ hdr.keyLen > itemMaxKeyLen ∨
          hdr.valLen = 0 ∨ hdr.keyLen = 0 then
        next (u16 (pos + itemHeaderSize)) (noteDirty s blkIndex)
      else if hdr.state = ItemState.normal then
        match func ⟨hdr, pos, hdr.keyLen + hdr.valLen, []⟩ s with
        | (s, .found item) => (s, some item)
        | (s, .failed) => (s, none)
        | (s, .cont) => next (u16 (pos + itemLen cfg hdr.keyLen hdr.valLen)) s
      else next (u16 (pos + itemLen cfg hdr.keyLen hdr.valLen)) (noteDirty s blkIndex)

def kvItemTraverse (mem : Mem) (func : Item → State → State × Verdict) (blkIndex : Nat) (s : State) :
    State × Option Item :=
  traverseLoop cfg mem func blkIndex (blkSize / itemHeaderSize) (u16 (blkIndex * blkSize + blkHeaderSize)) s

def forBlocks (f : Nat → State → State) (s : State) : State :=
  (List.range cfg.blkNums).foldl (fun s i => f i s) s

/-! ### Callbacks -/

def itemFindCb (mem : Mem) (key : Bytes) (item : Item) (s : State) : State × Verdict :=
  if item.hdr.keyLen ≠ key.length then (s, .cont)
  else if !mem (.buffer item.pos) then (s, .failed)
  else
    let store := read s.flash (item.pos + itemHeaderSize) item.len
    if store.take key.length = key then (s, .found { item with store := store }) else (s, .cont)

def itemGcCb (mem : Mem) (item : Item) (s : State) : State × Verdict :=
  let len := align cfg (itemHeaderSize + item.len)
  if !mem (.buffer item.pos) then (s, .failed)
  else
    let s := rawWrite s s.writePos (read s.flash item.pos len)
    let s := { s with writePos := u16 (s.writePos + len) }
    let index := s.writePos / blkSize
    (s.setSpace index ((s.info index).space - len), .cont)

def itemRecoveryCb (mem : Mem) (item : Item) (s : State) : State × Verdict :=
  if !mem (.buffer item.pos) then (s, .failed)
  else if item.hdr.crc = utilsCrc8 (read s.flash (item.pos + itemHeaderSize) item.len) then
    if item.hdr.originOff ≠ 0 ∧ item.pos ≠ item.hdr.originOff then (kvItemDelOrig mem s item, .cont) else (s, .cont)
  else (kvItemDelSelf s item, .cont)

/-- `strncmp(a, b, n) == 0`, of strings that end with a zero. -/
def strncmpEq : Nat → Bytes → Bytes → Bool
  | 0, _, _ => true
  | n + 1, a, b =>
    if a.headD 0 ≠ b.headD 0 then false
    else if a.headD 0 = 0 then true
    else strncmpEq n a.tail b.tail

def itemDelByPrefixCb (mem : Mem) (pre : Bytes) (item : Item) (s : State) : State × Verdict :=
  if item.hdr.keyLen < pre.length then (s, .cont)
  else if !mem (.buffer item.pos) then (s, .failed)
  else if strncmpEq pre.length (read s.flash (item.pos + itemHeaderSize) item.hdr.keyLen) pre then
    (kvItemDelSelf s item, .cont)
  else (s, .cont)

def itemDelAllCb (item : Item) (s : State) : State × Verdict :=
  if item.hdr.keyLen > 0 then (kvItemDelSelf s item, .cont) else (s, .cont)

/-- `__item_print_cb` of the list command. -/
def itemPrintCb (item : Item) (s : State) : State × Verdict :=
  let key := read s.flash (item.pos + itemHeaderSize) item.hdr.keyLen
  let val := read s.flash (item.pos + itemHeaderSize + item.hdr.keyLen) item.hdr.valLen
  ({ s with printed := s.printed ++ [(key, val)] }, .cont)

/-! ### The store -/

/-- The loop of `kv_item_get` over the blocks still to search. -/
def getLoop (mem : Mem) (key : Bytes) : List Nat → State → State × Option Item
  | [], s => (s, none)
  | i :: rest, s =>
    if (s.info i).state ≠ BlkState.clean then
      match kvItemTraverse cfg mem (itemFindCb mem key) i s with
      | (s, some item) => (s, some item)
      | (s, none) => getLoop mem key rest s
    else getLoop mem key rest s

def kvItemGet (mem : Mem) (key : Bytes) (s : State) : State × Option Item :=
  getLoop cfg mem key (List.range cfg.blkNums) s

def kvItemStore (mem : Mem) (key val : Bytes) (originOff : Nat) (s : State) : Option (State × Res) :=
  let len := itemLen cfg key.length val.length
  if !mem .store then some (s, .mallocFailed)
  else
    match kvItemCalcPos cfg s len with
    | none => none
    | some (s, pos) =>
      if pos > 0 then
        let s := rawWrite s pos (itemBytes cfg (newHdr key val originOff) key val)
        let s := { s with writePos := u16 (pos + len) }
        let index := s.writePos / blkSize
        some (s.setSpace index ((s.info index).space - len), .ok)
      else some (s, .noSpace)

def kvItemUpdate (mem : Mem) (item : Item) (key val : Bytes) (s : State) : Option (State × Res) :=
  if item.hdr.valLen = val.length ∧ (item.store.drop item.hdr.keyLen).take val.length = val then some (s, .ok)
  else
    match kvItemStore cfg mem key val item.pos s with
    | none => none
    | some (s, .ok) => some (kvItemDelSelf s item, .ok)
    | some (s, res) => some (s, res)

/-- `qm_kv_set`. -/
def kvSet (mem : Mem) (key val : Bytes) (s : State) : Option (State × Res) :=
  if val.length = 0 ∨ key.length > itemMaxKeyLen ∨ val.length > itemMaxValLen then some (s, .invalidParam)
  else
    match kvItemGet cfg mem key s with
    | (s, some item) => kvItemUpdate cfg mem item key val s
    | (s, none) => kvItemStore cfg mem key val 0 s

/-- What a call returns beside its code: the value, or the length a buffer must have. -/
inductive Outcome where
  | ret (res : Res)
  | value (val : Bytes)
  | tooSmall (len : Nat)
  deriving DecidableEq, Repr

/-- `qm_kv_get` into a buffer of `bufferLen` bytes. -/
def kvGet (mem : Mem) (key : Bytes) (bufferLen : Nat) (s : State) : State × Outcome :=
  if bufferLen = 0 then (s, .ret .invalidParam)
  else
    match kvItemGet cfg mem key s with
    | (s, none) => (s, .ret .itemNotFound)
    | (s, some item) =>
      if bufferLen < item.hdr.valLen then (s, .tooSmall item.hdr.valLen)
      else (s, .value ((item.store.drop item.hdr.keyLen).take item.hdr.valLen))

/-- `qm_kv_del`. -/
def kvDel (mem : Mem) (key : Bytes) (s : State) : State × Res :=
  match kvItemGet cfg mem key s with
  | (s, none) => (s, .itemNotFound)
  | (s, some item) => (kvItemDelSelf s item, .ok)

/-- `qm_kv_del_by_prefix`. -/
def kvDelByPrefix (mem : Mem) (pre : Bytes) (s : State) : State × Res :=
  (forBlocks cfg (fun i s => (kvItemTraverse cfg mem (itemDelByPrefixCb mem pre) i s).1) s, .ok)

/-- `qm_kv_del_all`. -/
def kvDelAll (mem : Mem) (s : State) : State × Res :=
  (forBlocks cfg (fun i s => (kvItemTraverse cfg mem itemDelAllCb i s).1) s, .ok)

def kvList (s : State) : List (Bytes × Bytes) :=
  (forBlocks cfg (fun i s => (kvItemTraverse cfg (fun _ => true) itemPrintCb i s).1) { s with printed := [] }).printed

/-! ### Garbage collection -/

/-- The block `qm_kv_gc` collects, from the one behind the write position around to it. -/
def dirtyLoop (s : State) (origin : Nat) : Nat → Nat → Option Nat
  | 0, _ => none
  | rounds + 1, i =>
    let i := if i = cfg.blkNums then 0 else i
    if (s.info i).state = BlkState.dirty then some i
    else if i = origin then none
    else dirtyLoop s origin rounds (i + 1)

def gcIndex (s : State) : Option Nat :=
  (List.range cfg.blkNums).find? fun i => (s.info i).state == BlkState.clean

/-- The collection of block `i` into block `g`, where the write position is. -/
def gcBlock (mem : Mem) (g i : Nat) (s : State) : State :=
  let s := (kvItemTraverse cfg mem (itemGcCb cfg mem) i s).1
  let s := kvBlockFormat s i
  let s := (kvStateSet s (s.writePos / blkSize * blkSize) BlkState.used).setState g BlkState.used
  { s with cleanBlkNums := s.cleanBlkNums - 1, gcTriggered := false }

/-- `qm_kv_gc`. -/
def kvGc (mem : Mem) (s : State) : State :=
  let originPos := s.writePos
  if s.cleanBlkNums = 0 then { s with gcTriggered := false }
  else
    match gcIndex cfg s with
    | none => { s with gcTriggered := false }
    | some g =>
      let s := { s with writePos := u16 (g * blkSize + blkHeaderSize) }
      match dirtyLoop cfg s (originPos / blkSize) (cfg.blkNums + 1) (originPos / blkSize + 1) with
      | none => { s with writePos := originPos, gcTriggered := false }
      | some i => gcBlock cfg mem g i s

/-! ### Mounting -/

/-- One block of the first loop of `kv_init`, with the list `unclean`. -/
def initBlock (mem : Mem) (i : Nat) (r : State × List Nat) : State × List Nat :=
  let (s, unclean) := r
  let magic := s.flash (i * blkSize)
  let state := s.flash (i * blkSize + 1)
  if magic = blkMagicNum then
    if state ≠ BlkState.used ∧ state ≠ BlkState.clean ∧ state ≠ BlkState.dirty then (kvBlockFormat s i, unclean)
    else
      let s := (kvItemTraverse cfg mem (itemRecoveryCb mem) i (s.setState i state)).1
      if state = BlkState.clean then
        if (s.info i).space ≠ blkSize - blkHeaderSize then (s, unclean ++ [i])
        else ({ s with cleanBlkNums := s.cleanBlkNums + 1 }, unclean)
      else (s, unclean)
  else (kvBlockFormat s i, unclean)

def initUnclean (s : State) (i : Nat) : State :=
  if s.cleanBlkNums ≥ kvGcReserved then (kvStateSet s (i * blkSize) BlkState.dirty).setState i BlkState.dirty
  else kvBlockFormat s i

def lastInUse (s : State) : Option Nat :=
  (List.range cfg.blkNums).find? fun i =>
    ((s.info i).state == BlkState.used || (s.info i).state == BlkState.dirty) &&
      (s.info (if i + 1 = cfg.blkNums then 0 else i + 1)).state == BlkState.clean

/-- The end of `kv_init`: where to write. -/
def initWritePos (s : State) : State :=
  if s.cleanBlkNums = cfg.blkNums then
    let s := { s with writePos := blkHeaderSize }
    let s := (kvStateSet s 0 BlkState.used).setState 0 BlkState.used
    { s with cleanBlkNums := s.cleanBlkNums - 1 }
  else
    match lastInUse cfg s with
    | none => s
    | some i => { s with writePos := u16 (i * blkSize + blkSize - (s.info i).space) }

/-- `kv_init` on a flash, with the manager zeroed by `qm_kv_init`. -/
def kvInit (mem : Mem) (f : Flash) : State :=
  let r := (List.range cfg.blkNums).foldl (fun r i => initBlock cfg mem i r)
    ({ flash := f, blockInfo := List.replicate cfg.blkNums ⟨0, 0⟩ }, [])
  let s := r.2.reverse.foldl initUnclean r.1
  let s := if s.cleanBlkNums = 0 then kvBlockFormat s 0 else s
  initWritePos cfg s

/-- `qm_kv_init`: a collection is due right away if there is little room. -/
def kvMount (mem : Mem) (f : Flash) : State :=
  let s := kvInit cfg mem f
  if (s.info (s.writePos / blkSize)).space < itemMaxLen ∧ s.cleanBlkNums < kvGcReserved + 1 then triggerGc s else s

end Calls

/-! ### Steps -/

/-- A string of C. -/
abbrev CString := { b : Bytes // 0 ∉ b }

inductive Event where
  | set (key : CString) (val : Bytes)
  | get (key : CString) (bufferLen : Nat)
  | del (key : CString)
  | delByPrefix (pre : CString)
  | delAll
  | gc
  deriving DecidableEq

/-- One call, or one collection. -/
def call (cfg : Config) (mem : Mem) (s : State) : Event → Option (State × Outcome)
  | .set key val => (kvSet cfg mem key.1 val s).map fun r => (r.1, .ret r.2)
  | .get key bufferLen => some (kvGet cfg mem key.1 bufferLen s)
  | .del key => some ((kvDel cfg mem key.1 s).1, .ret (kvDel cfg mem key.1 s).2)
  | .delByPrefix pre => some ((kvDelByPrefix cfg mem pre.1 s).1, .ret (kvDelByPrefix cfg mem pre.1 s).2)
  | .delAll => some ((kvDelAll cfg mem s).1, .ret (kvDelAll cfg mem s).2)
  | .gc => some (kvGc cfg mem s, .ret .ok)

def exec (cfg : Config) (mem : Mem) (s : State) (e : Event) : Option (State × Outcome) :=
  call cfg mem { s with images := [] } e

def machine (cfg : Config) : Machine State Event Outcome where
  step := exec cfg fun _ => true

end Qumios.Kv
