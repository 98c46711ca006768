import Qumios.Kv.Manager

/-! The store as a log: blocks of entries.

What the functions of the store leave on the flash is, block by block, a mark and
the entries written behind it, live or deleted. `flashOf` lays such blocks out as
bytes, and `conc` adds what the manager keeps in memory about them. Every raw
operation on a laid-out log gives a laid-out log; the lemmas say which one. -/
namespace Qumios.Kv
open Nor List

structure Entry where
  live : Bool
  key : Bytes
  value : Bytes
  origin : Nat
  deriving DecidableEq, Repr

/-- The state byte in a block's header; `blank` is a block erased and without header. -/
inductive Mark where
  | blank
  | clean
  | used
  | dirty
  deriving DecidableEq, Repr

structure Blk where
  mark : Mark
  entries : List Entry
  deriving DecidableEq, Repr

namespace Mark

def byte : Mark → UInt8
  | blank => 0xFF
  | clean => BlkState.clean
  | used => BlkState.used
  | dirty => BlkState.dirty

def string : Mark → Bytes
  | blank => []
  | m => [blkMagicNum, m.byte, 0, 0]

variable {m : Mark}

theorem string_of_ne (h : m ≠ .blank) : m.string = [blkMagicNum, m.byte, 0, 0] := by
  cases m <;> first | rfl | exact absurd rfl h

@[simp] theorem byte_eq_clean : m.byte = BlkState.clean ↔ m = .clean := by
  cases m <;> decide

@[simp] theorem byte_eq_used : m.byte = BlkState.used ↔ m = .used := by
  cases m <;> decide

@[simp] theorem byte_eq_dirty : m.byte = BlkState.dirty ↔ m = .dirty := by
  cases m <;> decide

end Mark

namespace Entry

def hdr (e : Entry) : ItemHdr :=
  ⟨itemMagicNum, if e.live then ItemState.normal else ItemState.delete, utilsCrc8 (e.key ++ e.value),
    e.key.length, e.value.length, e.origin⟩

def size (cfg : Config) (e : Entry) : Nat := itemLen cfg e.key.length e.value.length

def string (cfg : Config) (e : Entry) : Bytes := itemBytes cfg e.hdr e.key e.value

variable {e : Entry}

theorem state_normal_iff : e.hdr.state = ItemState.normal ↔ e.live = true := by
  rw [hdr]
  cases e.live <;> simp [ItemState.normal, ItemState.delete]

def padding (cfg : Config) (e : Entry) : Bytes :=
  List.replicate (e.size cfg - (itemHeaderSize + e.key.length + e.value.length)) 0

theorem string_eq (cfg : Config) (e : Entry) :
    e.string cfg = [] ++ e.hdr.bytes ++ (e.key ++ (e.value ++ e.padding cfg)) := by
  simp only [string, itemBytes, padding, size, append_assoc, nil_append]

def dead (e : Entry) : Entry := { e with live := false }

/-- What `qm_kv_set` lets through, at a position of 16 bits. -/
structure Valid (e : Entry) : Prop where
  key : 0 < e.key.length ∧ e.key.length ≤ itemMaxKeyLen
  value : 0 < e.value.length ∧ e.value.length ≤ itemMaxValLen
  origin : e.origin < 65536

@[simp] theorem length_string (cfg : Config) (e : Entry) : (e.string cfg).length = e.size cfg :=
  length_itemBytes cfg e.hdr e.key e.value

theorem header_lt_size (cfg : Config) (h : e.Valid) : itemHeaderSize + 2 ≤ e.size cfg := by
  have := le_itemLen cfg e.key.length e.value.length
  have := h.key.1
  have := h.value.1
  simp only [size]
  omega

theorem Valid.dead (h : e.Valid) : e.dead.Valid := ⟨h.key, h.value, h.origin⟩

end Entry

section Blk
variable (cfg : Config)

def sizes (es : List Entry) : Nat := (es.map (Entry.size cfg)).sum

@[simp] theorem sizes_nil : sizes cfg [] = 0 := rfl

@[simp] theorem sizes_cons (e : Entry) (es : List Entry) : sizes cfg (e :: es) = e.size cfg + sizes cfg es := by
  simp [sizes]

@[simp] theorem sizes_append (a b : List Entry) : sizes cfg (a ++ b) = sizes cfg a + sizes cfg b := by
  simp [sizes]

def strings (es : List Entry) : Bytes := es.flatMap (Entry.string cfg)

@[simp] theorem strings_cons (e : Entry) (es : List Entry) :
    strings cfg (e :: es) = e.string cfg ++ strings cfg es := rfl

@[simp] theorem strings_append (a b : List Entry) : strings cfg (a ++ b) = strings cfg a ++ strings cfg b :=
  flatMap_append

@[simp] theorem length_strings (es : List Entry) : (strings cfg es).length = sizes cfg es := by
  induction es with
  | nil => rfl
  | cons e rest ih => simp [ih]

namespace Blk

def fill (b : Blk) : Nat := blkHeaderSize + sizes cfg b.entries

def string (b : Blk) : Bytes := b.mark.string ++ strings cfg b.entries

def info (b : Blk) : BlockInfo := ⟨blkSize - b.fill cfg, b.mark.byte⟩

theorem length_string {b : Blk} (h : b.mark ≠ .blank) : (b.string cfg).length = b.fill cfg := by
  rw [string, length_append, Mark.string_of_ne h, length_strings]
  rfl

end Blk

end Blk

/-! ### On the flash -/

section Flash
variable (cfg : Config)

def flashOf (bs : List Blk) : Flash := image blkSize (bs.map (Blk.string cfg))

theorem blkSize_pos : 0 < blkSize := by decide

variable {cfg} {bs : List Blk} {b : Blk} {i : Nat}

theorem string_getElem? (cfg : Config) (h : bs[i]? = some b) : (bs.map (Blk.string cfg))[i]? = some (b.string cfg) := by
  rw [getElem?_map, h]
  rfl

def posOf (cfg : Config) (i : Nat) (before : List Entry) : Nat := i * blkSize + blkHeaderSize + sizes cfg before

variable {before : List Entry}

theorem string_split {after : List Entry} {e : Entry} (hb : b.entries = before ++ e :: after) :
    b.string cfg = (b.mark.string ++ strings cfg before) ++ e.string cfg ++ strings cfg after := by
  rw [Blk.string, hb, strings_append, strings_cons]
  simp only [append_assoc]

theorem length_front (h : b.mark ≠ .blank) :
    (b.mark.string ++ strings cfg before).length = blkHeaderSize + sizes cfg before := by
  rw [length_append, Mark.string_of_ne h, length_strings]
  rfl

/-! #### Reading -/

section Entry
variable {before after : List Entry} {e : Entry} (h : bs[i]? = some b) (hmark : b.mark ≠ .blank)
  (hb : b.entries = before ++ e :: after)
include h hmark hb

omit h hmark in
theorem entry_inside (hfill : b.fill cfg < blkSize) :
    blkHeaderSize + sizes cfg before + e.size cfg < blkSize := by
  rw [Blk.fill, hb, sizes_append, sizes_cons] at hfill
  omega

theorem read_entry (front data rest : Bytes) (hfill : b.fill cfg < blkSize)
    (he : e.string cfg = front ++ data ++ rest) :
    read (flashOf cfg bs) (posOf cfg i before + front.length) data.length = data := by
  have hsize : front.length + data.length ≤ e.size cfg := by
    rw [← Entry.length_string, he, length_append, length_append]
    omega
  have hinside := entry_inside hb hfill
  have hsplit : b.string cfg = (b.mark.string ++ strings cfg before ++ front) ++ data ++ (rest ++ strings cfg after) := by
    rw [string_split hb, he]
    simp only [append_assoc]
  have hfront : (b.mark.string ++ strings cfg before ++ front).length =
      blkHeaderSize + sizes cfg before + front.length := by
    rw [length_append, length_front hmark]
  have hread : read (flashOf cfg bs) (i * blkSize + (b.mark.string ++ strings cfg before ++ front).length) data.length =
      data := read_image ((string_getElem? cfg h).trans (congrArg some hsplit)) (by omega)
  rw [hfront] at hread
  rw [posOf, Nat.add_assoc (i * blkSize), Nat.add_assoc (i * blkSize)]
  exact hread

section
variable (hfill : b.fill cfg < blkSize)
include hfill

theorem readHdr_entry (he : e.Valid) : readHdr (flashOf cfg bs) (posOf cfg i before) = e.hdr := by
  have hread := read_entry h hmark hb [] e.hdr.bytes _ hfill (e.string_eq cfg)
  rw [length_nil, Nat.add_zero, ItemHdr.length_bytes] at hread
  have hkey := he.key.2
  have hvalue := he.value.2
  simp only [itemMaxKeyLen, itemMaxValLen] at hkey hvalue
  rw [readHdr, hread]
  exact ItemHdr.ofBytes_bytes (show e.key.length < 256 by omega) (show e.value.length < 65536 by omega) he.origin

theorem read_content :
    read (flashOf cfg bs) (posOf cfg i before + itemHeaderSize) (e.key.length + e.value.length) = e.key ++ e.value := by
  have hread := read_entry h hmark hb e.hdr.bytes (e.key ++ e.value) (e.padding cfg) hfill (by
    rw [Entry.string_eq]
    simp only [append_assoc, nil_append])
  rwa [ItemHdr.length_bytes, length_append] at hread

theorem read_key : read (flashOf cfg bs) (posOf cfg i before + itemHeaderSize) e.key.length = e.key := by
  have hread := read_entry h hmark hb e.hdr.bytes e.key (e.value ++ e.padding cfg) hfill (by
    rw [Entry.string_eq]
    simp only [append_assoc, nil_append])
  rwa [ItemHdr.length_bytes] at hread

theorem read_value :
    read (flashOf cfg bs) (posOf cfg i before + itemHeaderSize + e.key.length) e.value.length = e.value := by
  have hread := read_entry h hmark hb (e.hdr.bytes ++ e.key) e.value (e.padding cfg) hfill (by
    rw [Entry.string_eq]
    simp only [append_assoc, nil_append])
  rwa [length_append, ItemHdr.length_bytes, ← Nat.add_assoc] at hread

theorem read_whole : read (flashOf cfg bs) (posOf cfg i before) (e.size cfg) = e.string cfg := by
  have hread := read_entry h hmark hb [] (e.string cfg) [] hfill (by simp)
  rwa [Entry.length_string, length_nil, Nat.add_zero] at hread

/-- Marking an entry deleted. -/
theorem program_dead :
    program (flashOf cfg bs) (posOf cfg i before + 1) [ItemState.delete] =
      flashOf cfg (bs.set i { b with entries := before ++ e.dead :: after }) := by
  have hinside := entry_inside hb hfill
  have hsplit : b.string cfg = (b.mark.string ++ strings cfg before ++ [itemMagicNum]) ++
      e.hdr.state :: ((e.string cfg).drop 2 ++ strings cfg after) := by
    rw [string_split hb]
    simp [Entry.string, itemBytes, ItemHdr.bytes, Entry.hdr]
  have hfront : (b.mark.string ++ strings cfg before ++ [itemMagicNum]).length =
      blkHeaderSize + sizes cfg before + 1 := by
    rw [length_append, length_front hmark]
    rfl
  have hsize := le_itemLen cfg e.key.length e.value.length
  have hprogram := program_byte ((string_getElem? cfg h).trans (congrArg some hsplit)) ItemState.delete
    (show _ < blkSize by
      simp only [Entry.size, itemHeaderSize] at hinside hsize
      omega)
  rw [hfront] at hprogram
  have hnew : ({ b with entries := before ++ e.dead :: after } : Blk).string cfg =
      (b.mark.string ++ strings cfg before ++ [itemMagicNum]) ++
        (e.hdr.state &&& ItemState.delete) :: ((e.string cfg).drop 2 ++ strings cfg after) := by
    rw [string_split rfl]
    have hzero : e.hdr.state &&& ItemState.delete = ItemState.delete := by
      simp [ItemState.delete]
    rw [hzero]
    simp [Entry.string, itemBytes, ItemHdr.bytes, Entry.hdr, Entry.dead]
  rw [flashOf, flashOf, map_set, hnew, posOf, Nat.add_assoc (i * blkSize), Nat.add_assoc (i * blkSize)]
  exact hprogram
end

end Entry

section Block
variable (cfg) (h : bs[i]? = some b)
include h

section
variable (hmark : b.mark ≠ .blank)
include hmark

/-- Behind the entries of a block there is no header. -/
theorem readHdr_erased (hroom : b.fill cfg + itemHeaderSize < blkSize) :
    (readHdr (flashOf cfg bs) (i * blkSize + b.fill cfg)).magic = 0xFF ∧
      (readHdr (flashOf cfg bs) (i * blkSize + b.fill cfg)).state = 0xFF := by
  have hbehind (k : Nat) (hk : k < itemHeaderSize) : flashOf cfg bs (i * blkSize + b.fill cfg + k) = 0xFF := by
    rw [Nat.add_assoc]
    exact image_behind (string_getElem? cfg h) (by rw [Blk.length_string cfg hmark]; omega) (by omega)
  have hread : read (flashOf cfg bs) (i * blkSize + b.fill cfg) itemHeaderSize = replicate itemHeaderSize 0xFF := by
    refine eq_replicate_iff.mpr ⟨length_read _ _ _, fun x hx => ?_⟩
    obtain ⟨k, hk, rfl⟩ := mem_map.mp hx
    exact hbehind k (mem_range.mp hk)
  rw [readHdr, hread]
  exact ⟨rfl, rfl⟩

theorem flash_magic : flashOf cfg bs (i * blkSize) = blkMagicNum := by
  have hat := image_at (bs.map (Blk.string cfg)) i (show 0 < blkSize by decide)
  rw [Nat.add_zero, getD_of_getElem? (string_getElem? cfg h), Blk.string, Mark.string_of_ne hmark] at hat
  exact hat

theorem flash_state : flashOf cfg bs (i * blkSize + 1) = b.mark.byte := by
  have hat := image_at (bs.map (Blk.string cfg)) i (show 1 < blkSize by decide)
  rw [getD_of_getElem? (string_getElem? cfg h), Blk.string, Mark.string_of_ne hmark] at hat
  exact hat

/-- Marking a block; a mark only loses bits. -/
theorem program_mark {m : Mark} (hm : m ≠ .blank) (hbits : b.mark.byte &&& m.byte = m.byte) :
    program (flashOf cfg bs) (i * blkSize + 1) [m.byte] = flashOf cfg (bs.set i { b with mark := m }) := by
  have hsplit : b.string cfg = [blkMagicNum] ++ b.mark.byte :: ([0, 0] ++ strings cfg b.entries) := by
    rw [Blk.string, Mark.string_of_ne hmark]
    rfl
  have hnew : ({ b with mark := m } : Blk).string cfg = [blkMagicNum] ++ m.byte :: ([0, 0] ++ strings cfg b.entries) := by
    rw [Blk.string, Mark.string_of_ne hm]
    rfl
  have hprogram := program_byte ((string_getElem? cfg h).trans (congrArg some hsplit)) m.byte (show 1 < blkSize by decide)
  rw [hbits] at hprogram
  rw [flashOf, flashOf, map_set, hnew]
  exact hprogram

theorem program_entry {e : Entry} (hroom : b.fill cfg + e.size cfg ≤ blkSize) :
    program (flashOf cfg bs) (i * blkSize + b.fill cfg) (e.string cfg) =
      flashOf cfg (bs.set i { b with entries := b.entries ++ [e] }) := by
  have hnew : ({ b with entries := b.entries ++ [e] } : Blk).string cfg = b.string cfg ++ e.string cfg := by
    simp [Blk.string, strings]
  have hprogram := program_append (string_getElem? cfg h) (e.string cfg)
    (by rwa [Blk.length_string cfg hmark, Entry.length_string]) blkSize_pos
  rw [Blk.length_string cfg hmark] at hprogram
  rw [flashOf, flashOf, map_set, hnew]
  exact hprogram
end

theorem erase_block : erase blkSize (flashOf cfg bs) i = flashOf cfg (bs.set i ⟨.blank, []⟩) := by
  rw [flashOf, flashOf, map_set]
  exact erase_image (string_getElem? cfg h) blkSize_pos

end Block

theorem program_header (cfg : Config) (h : bs[i]? = some ⟨.blank, []⟩) :
    program (flashOf cfg bs) (i * blkSize) [blkMagicNum, BlkState.clean, 0, 0] =
      flashOf cfg (bs.set i ⟨.clean, []⟩) := by
  have hstring : (⟨.blank, []⟩ : Blk).string cfg = [] := rfl
  have hempty := string_getElem? cfg h
  rw [hstring] at hempty
  have hprogram := program_append hempty [blkMagicNum, BlkState.clean, 0, 0] (by decide) blkSize_pos
  rw [length_nil, Nat.add_zero] at hprogram
  rw [flashOf, flashOf, map_set, hprogram]
  rfl

theorem flashOf_blank (n : Nat) : flashOf cfg (replicate n ⟨.blank, []⟩) = erased := by
  rw [flashOf, map_replicate]
  exact image_empty n

end Flash

/-! ### Logs -/

/-- The store: its blocks, the block that is written to, whether a collection is due, and
the blocks after each raw operation of the call at hand. -/
structure Log where
  blocks : List Blk
  cur : Nat
  gc : Bool := false
  images : List (List Blk) := []
  deriving DecidableEq, Repr

namespace Log

def blk (l : Log) (i : Nat) : Blk := l.blocks.getD i ⟨.blank, []⟩

def cleans (l : Log) : Nat := l.blocks.countP fun b => b.mark = .clean

def put (l : Log) (i : Nat) (b : Blk) : Log :=
  { l with blocks := l.blocks.set i b, images := l.images ++ [l.blocks.set i b] }

/-- The state the log stands for. -/
def conc (cfg : Config) (l : Log) : State where
  flash := flashOf cfg l.blocks
  gcTriggered := l.gc
  cleanBlkNums := l.cleans
  writePos := l.cur * blkSize + (l.blk l.cur).fill cfg
  blockInfo := l.blocks.map (Blk.info cfg)
  images := l.images.map (flashOf cfg)

end Log

end Qumios.Kv
