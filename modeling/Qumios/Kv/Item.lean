import Qumios.Lib.Nor

/-! Blocks and items of `qm_kvmgr.c` on the flash.

A block of 4 KiB starts with a header of four bytes and holds items one behind the
other; an item is a header of eight bytes, the key, the value, and zeros up to a
multiple of the pointer size. -/
namespace Qumios.Kv
open Nor

/-- `BLK_NUMS`, which `qm_kv_init` wants above `KV_GC_RESERVED`, and `sizeof(void *)`. -/
structure Config where
  blkNums : Nat
  ptrSize : Nat
  enough : 2 ≤ blkNums
  aligned : ptrSize = 4 ∨ ptrSize = 8

def blkSize : Nat := 4096
def blkHeaderSize : Nat := 4
def itemHeaderSize : Nat := 8
def itemMaxKeyLen : Nat := 128
def itemMaxValLen : Nat := 768
def itemMaxLen : Nat := itemHeaderSize + itemMaxKeyLen + itemMaxValLen
def kvGcReserved : Nat := 1

/-- A `uint16_t`, which positions are. -/
def u16 (n : Nat) : Nat := n % 65536

theorem u16_of_lt {n : Nat} (h : n < 65536) : u16 n = n := Nat.mod_eq_of_lt h

def blkMagicNum : UInt8 := 0x4B
def itemMagicNum : UInt8 := 0x49

namespace BlkState

def used : UInt8 := 0xCC
def clean : UInt8 := 0xEE
def dirty : UInt8 := 0x44

end BlkState

namespace ItemState

def normal : UInt8 := 0xEE
def delete : UInt8 := 0

end ItemState

/-- `item_hdr_t`. -/
structure ItemHdr where
  magic : UInt8
  state : UInt8
  crc : UInt8
  keyLen : Nat
  valLen : Nat
  originOff : Nat
  deriving DecidableEq, Repr

def ItemHdr.bytes (h : ItemHdr) : Bytes :=
  [h.magic, h.state, h.crc, UInt8.ofNat h.keyLen, UInt8.ofNat h.valLen, UInt8.ofNat (h.valLen / 256),
    UInt8.ofNat h.originOff, UInt8.ofNat (h.originOff / 256)]

@[simp] theorem ItemHdr.length_bytes (h : ItemHdr) : h.bytes.length = itemHeaderSize := rfl

def ItemHdr.ofBytes : Bytes → ItemHdr
  | [magic, state, crc, keyLen, valLow, valHigh, originLow, originHigh] =>
    ⟨magic, state, crc, keyLen.toNat, valLow.toNat + 256 * valHigh.toNat, originLow.toNat + 256 * originHigh.toNat⟩
  | _ => ⟨0, 0, 0, 0, 0, 0⟩

theorem ItemHdr.ofBytes_bytes {h : ItemHdr} (hkey : h.keyLen < 256) (hval : h.valLen < 65536)
    (horigin : h.originOff < 65536) : ItemHdr.ofBytes h.bytes = h := by
  obtain ⟨magic, state, crc, keyLen, valLen, originOff⟩ := h
  simp only [ItemHdr.bytes, ItemHdr.ofBytes, UInt8.toNat_ofNat', ItemHdr.mk.injEq, true_and] at *
  omega

/-- One byte of `utils_crc8`, bit by bit. -/
def crcShift : Nat → UInt8 → UInt8
  | 0, crc => crc
  | i + 1, crc => crcShift i (if crc &&& 0x80 ≠ 0 then (crc <<< 1) ^^^ 0x31 else crc <<< 1)

def utilsCrc8 (buf : Bytes) : UInt8 := buf.foldl (fun crc b => crcShift 8 (crc ^^^ b)) 0

section Length
variable (cfg : Config)

/-- `(n + ~KV_ALIGN_MASK) & KV_ALIGN_MASK`. -/
def align (n : Nat) : Nat := (n + (cfg.ptrSize - 1)) / cfg.ptrSize * cfg.ptrSize

theorem le_align (n : Nat) : n ≤ align cfg n := by
  rcases cfg.aligned with h | h <;> simp only [align, h] <;> omega

def itemLen (keyLen valLen : Nat) : Nat := align cfg (itemHeaderSize + keyLen + valLen)

theorem le_itemLen (keyLen valLen : Nat) : itemHeaderSize + keyLen + valLen ≤ itemLen cfg keyLen valLen :=
  le_align cfg _

/-- The header `kv_item_store` makes. -/
def newHdr (key val : Bytes) (originOff : Nat) : ItemHdr :=
  ⟨itemMagicNum, ItemState.normal, utilsCrc8 (key ++ val), key.length, val.length, originOff⟩

/-- An item as `kv_item_store` lays it out. -/
def itemBytes (hdr : ItemHdr) (key val : Bytes) : Bytes :=
  hdr.bytes ++ key ++ val ++
    List.replicate (itemLen cfg key.length val.length - (itemHeaderSize + key.length + val.length)) 0

theorem length_itemBytes (hdr : ItemHdr) (key val : Bytes) :
    (itemBytes cfg hdr key val).length = itemLen cfg key.length val.length := by
  have h := le_itemLen cfg key.length val.length
  simp only [itemBytes, List.length_append, ItemHdr.length_bytes, List.length_replicate]
  omega

end Length

end Qumios.Kv
