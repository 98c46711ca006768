import Qumios.Lib.Wire

/-! Blocks and contexts of `qm_tlv.c`: the build, the types, the list.

A context is the list of its blocks. A block's value lies in `value.bytes` while it
is at most `CONFIG_QM_TLV_BUF_SIZE` long and on the heap behind `value.pdata` beyond
that; both are read by the same rule they were written by, so a block here has one
string of bytes, and `len` is its length. Only the allocation of the second kind is
visible. -/
namespace Qumios.Tlv
open Wire

/-- `CONFIG_QM_*_TAG_SIZE` and `CONFIG_QM_*_LENGTH_SIZE` of one format. -/
structure Widths where
  tag : Width
  length : Width
  deriving DecidableEq, Repr

/-- The build. A format without widths is not supported by it. -/
structure Config where
  tlv : Option Widths
  dttv : Option Widths
  ttlv : Option Widths
  dttvForceUpdate : Bool
  int16 : Bool
  int32 : Bool
  int64 : Bool
  float32 : Bool
  float64 : Bool
  bytes : Bool
  bufSize : Nat
  deriving DecidableEq, Repr

/-- `qm_tlv_block_type_t`. -/
inductive BlockType where
  | tlv
  | dttv
  | ttlv
  deriving DecidableEq, Repr

def Config.widths (cfg : Config) : BlockType → Option Widths
  | .tlv => cfg.tlv
  | .dttv => cfg.dttv
  | .ttlv => cfg.ttlv

def structWidth (f : Widths → Width) (cfg : Config) : Width :=
  if cfg.tlv.map f = some .two || cfg.dttv.map f = some .two || cfg.ttlv.map f = some .two then .two else .one

/-- `CONFIG_QM_TLV_TAG_BYTE`. -/
def Config.tagByte (cfg : Config) : Width := structWidth Widths.tag cfg

/-- `CONFIG_QM_TLV_LENGTH_BYTE`. -/
def Config.lengthByte (cfg : Config) : Width := structWidth Widths.length cfg

structure Block where
  tag : Nat
  type : UInt8
  value : Bytes
  update : Bool := false
  serialization : Bool := false
  deriving DecidableEq, Repr

def Block.len (b : Block) : Nat := b.value.length

abbrev Context := List Block

/-- What the functions return beside `QM_EOK`. -/
inductive Errno where
  | einval
  | enomem
  /-- Not a code of the source: it reads a byte behind the message here. -/
  | overread
  /-- Nor is this: it writes a byte behind the buffer. -/
  | overrun
  deriving DecidableEq, Repr

/-! ### Types -/

/-- `REAL_TYPE_ID`. -/
def realTypeId (type : UInt8) : UInt8 := type &&& 0x7F

/-- `qm_tlv_block_data_type_len`: the size of a type, 0 if the value says it itself;
`none` is the source's -1. -/
def dataTypeLen (cfg : Config) (type : UInt8) : Option Nat :=
  let type := (if cfg.dttv.isSome && cfg.dttvForceUpdate then realTypeId type else type).toNat
  if type ≤ 2 then some 1
  else if cfg.int16 && ((3 ≤ type && type ≤ 4) || (15 ≤ type && type ≤ 16) || (19 ≤ type && type ≤ 20)) then some 2
  else if cfg.int32 && ((5 ≤ type && type ≤ 6) || (17 ≤ type && type ≤ 18) || (21 ≤ type && type ≤ 22)) then some 4
  else if cfg.int64 && (7 ≤ type && type ≤ 8) then some 8
  else if cfg.float32 && type == 9 then some 4
  else if cfg.float64 && type == 10 then some 8
  else if cfg.bytes && ((11 ≤ type && type ≤ 14) || (23 ≤ type && type ≤ 24)) then some 0
  else none

variable {cfg : Config}

theorem dataTypeLen_le {type : UInt8} {n : Nat} (h : dataTypeLen cfg type = some n) : n ≤ 8 := by
  unfold dataTypeLen at h
  grind

/-! ### The list -/

/-- `qm_tlv_block_check`: the tag is taken. -/
def blockCheck (ctx : Context) (b : Block) : Bool := ctx.any fun m => m.tag == b.tag

/-- `qm_tlv_block_add`. -/
def blockAdd (ctx : Context) (b : Block) : Except Errno Context :=
  if ctx = [] then .ok [{ b with update := true }]
  else if blockCheck ctx b then .error .einval
  else .ok (ctx ++ [{ b with update := true }])

theorem blockAdd_fresh {ctx : Context} {b : Block} (h : b.tag ∉ ctx.map Block.tag) :
    blockAdd ctx b = .ok (ctx ++ [{ b with update := true }]) := by
  have hcheck : blockCheck ctx b = false := by
    rw [blockCheck, List.any_eq_false]
    intro m hm heq
    exact h (List.mem_map.mpr ⟨m, hm, beq_iff_eq.mp heq⟩)
  by_cases hnil : ctx = []
  · subst hnil
    rfl
  · rw [blockAdd, if_neg hnil, hcheck, if_neg Bool.false_ne_true]

theorem blockAdd_taken {ctx : Context} {b : Block} (h : b.tag ∈ ctx.map Block.tag) :
    blockAdd ctx b = .error .einval := by
  obtain ⟨m, hm, htag⟩ := List.mem_map.mp h
  have hcheck : blockCheck ctx b = true := List.any_eq_true.mpr ⟨m, hm, beq_iff_eq.mpr htag⟩
  rw [blockAdd, if_neg (List.ne_nil_of_mem hm), if_pos hcheck]

/-- `qm_tlv_pack_bytes` into a new block; `mem` is the allocator's answer. -/
def packBytes (cfg : Config) (mem : Bool) (bytes : Bytes) : Except Errno Bytes :=
  if bytes.length = 0 then .error .einval
  else if bytes.length ≤ cfg.bufSize then .ok bytes
  else if mem then .ok bytes
  else .error .enomem

theorem packBytes_ok {bytes : Bytes} (h : bytes ≠ []) : packBytes cfg true bytes = .ok bytes := by
  have hlen : bytes.length ≠ 0 := fun h0 => h (List.length_eq_zero_iff.mp h0)
  simp [packBytes, hlen]

theorem packBytes_eq_ok {mem : Bool} {bytes value : Bytes} (h : packBytes cfg mem bytes = .ok value) :
    bytes ≠ [] ∧ value = bytes := by
  unfold packBytes at h
  split at h
  · cases h
  · next hlen =>
    refine ⟨fun hnil => hlen (List.length_eq_zero_iff.mpr hnil), ?_⟩
    split at h
    · exact (Except.ok.inj h).symm
    · split at h
      · exact (Except.ok.inj h).symm
      · cases h

end Qumios.Tlv
