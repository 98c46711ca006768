import Qumios.Tlv.Block

/-! Serializing and deserializing contexts: the three formats of `qm_tlv.c`.

The formats differ in the header of a block: tag and length (TLV), type, tag and
length (DTTV), tag, type and length (TTLV), where the last two leave the length out
if the type has a size. What the loops around the headers do is the same in the
three copies the source has of them, and stands here once.

An index into a message is here the rest of the message behind it, and a pointer to
write through is the string written so far. -/
namespace Qumios.Tlv
open Wire

/-- `qm_tlv_serialize_type_t`. -/
inductive SerializeType where
  | all
  | update
  | part
  deriving DecidableEq, Repr

/-- What a header says about the value behind it. -/
structure Header where
  tag : Nat
  type : UInt8
  len : Nat
  deriving DecidableEq, Repr

/-- One format: how a header is read and written, and what a block is taken to need. -/
structure Format where
  readHeader : Bytes → Except Errno (Header × Bytes)
  header : Block → Bytes
  blockLen : Block → Nat

/-! ### Headers -/

def readNumber (w : Width) (rest : Bytes) : Except Errno (Nat × Bytes) :=
  match w.get rest with
  | none => .error .einval
  | some r => .ok r

@[simp] theorem readNumber_put {w : Width} {n : Nat} (h : n < w.limit) (rest : Bytes) :
    readNumber w (w.put n ++ rest) = .ok (n, rest) := by
  rw [readNumber, Width.get_put h]

theorem readNumber_eq_ok {w : Width} {bytes rest : Bytes} {n : Nat} (h : readNumber w bytes = .ok (n, rest)) :
    n < w.limit ∧ bytes = w.put n ++ rest := by
  unfold readNumber at h
  split at h
  · cases h
  · next hget =>
    cases h
    exact ⟨Width.get_lt hget, Width.put_of_get hget⟩

theorem bind_eq_ok {α β : Type} {x : Except Errno α} {f : α → Except Errno β} {b : β} (h : (x >>= f) = .ok b) :
    ∃ a, x = .ok a ∧ f a = .ok b := by
  cases x with
  | error e => cases h
  | ok a => exact ⟨a, rfl, h⟩

theorem bind_eq_error {α β : Type} {x : Except Errno α} {f : α → Except Errno β} {e : Errno}
    (h : (x >>= f) = .error e) : x = .error e ∨ ∃ a, x = .ok a ∧ f a = .error e := by
  cases x with
  | error e' =>
    cases h
    exact .inl rfl
  | ok a => exact .inr ⟨a, rfl, h⟩

/-- The length behind a type of size `typeLen`. -/
def readLen (w : Widths) (typeLen : Nat) (rest : Bytes) : Except Errno (Nat × Bytes) :=
  if typeLen = 0 then readNumber w.length rest else .ok (typeLen, rest)

def putLen (cfg : Config) (w : Widths) (b : Block) : Bytes :=
  if dataTypeLen cfg b.type = some 0 then w.length.put b.len else []

/-- What a typed block needs behind type and tag; a type the build does not know
counts nothing. -/
def typedLen (cfg : Config) (lengthSize : Nat) (b : Block) : Nat :=
  match dataTypeLen cfg b.type with
  | some 0 => lengthSize + b.len
  | some n => n
  | none => 0

def tlvFormat (w : Widths) : Format where
  readHeader rest := do
    let (tag, rest) ← readNumber w.tag rest
    let (len, rest) ← readNumber w.length rest
    return (⟨tag, 0, len⟩, rest)
  header b := w.tag.put b.tag ++ w.length.put b.len
  blockLen b := w.tag.size + w.length.size + b.len

def dttvFormat (cfg : Config) (w : Widths) : Format where
  readHeader
    -- the loop is not entered with nothing left
    | [] => .error .overread
    | type :: rest =>
      match dataTypeLen cfg type with
      | none => .error .einval
      | some typeLen => do
        let (tag, rest) ← readNumber w.tag rest
        let (len, rest) ← readLen w typeLen rest
        return (⟨tag, type, len⟩, rest)
  header b := b.type :: (w.tag.put b.tag ++ putLen cfg w b)
  blockLen b := 1 + w.tag.size + typedLen cfg w.length.size b

/-- `ttlv_block_len` counts tag and length as wide as in the struct, not as on the wire;
the type is read without a look at what is left. -/
def ttlvFormat (cfg : Config) (w : Widths) : Format where
  readHeader rest := do
    let (tag, rest) ← readNumber w.tag rest
    match rest with
    | [] => .error .overread
    | type :: rest =>
      match dataTypeLen cfg type with
      | none => .error .einval
      | some typeLen => do
        let (len, rest) ← readLen w typeLen rest
        return (⟨tag, type, len⟩, rest)
  header b := w.tag.put b.tag ++ b.type :: putLen cfg w b
  blockLen b := cfg.tagByte.size + 1 + typedLen cfg cfg.lengthByte.size b

def Config.format (cfg : Config) : BlockType → Option Format
  | .tlv => cfg.tlv.map tlvFormat
  | .dttv => cfg.dttv.map (dttvFormat cfg)
  | .ttlv => cfg.ttlv.map (ttlvFormat cfg)

/-! ### Deserializing -/

/-- What the allocator answers to the `i`-th block: the block itself, and its value if
that does not fit into it. -/
abbrev Allocator := Nat → Bool × Bool

/-- One block off the message. -/
def readBlock (cfg : Config) (f : Format) (mem : Bool × Bool) (rest : Bytes) : Except Errno (Block × Bytes) :=
  if !mem.1 then .error .enomem
  else do
    let (h, rest) ← f.readHeader rest
    if rest.length < h.len then .error .einval
    else
      let value ← packBytes cfg mem.2 (rest.take h.len)
      return (⟨h.tag, h.type, value, false, false⟩, rest.drop h.len)

/-- The loop. A block costs at least a byte, so a message is through after as many
rounds as it has bytes. An error keeps the blocks in front of it. -/
def deserializeLoop (cfg : Config) (f : Format) (mem : Allocator) :
    Nat → Nat → Bytes → Context → Context × Except Errno Unit
  | 0, _, _, ctx => (ctx, .ok ())
  | rounds + 1, i, rest, ctx =>
    if rest = [] then (ctx, .ok ())
    else
      match readBlock cfg f (mem i) rest with
      | .error e => (ctx, .error e)
      | .ok (b, rest) =>
        match blockAdd ctx b with
        | .error e => (ctx, .error e)
        | .ok ctx => deserializeLoop cfg f mem rounds (i + 1) rest ctx

/-- `_qm_tlv_deserialize`, `_qm_dttv_deserialize`, `_qm_ttlv_deserialize`. -/
def deserializeWith (cfg : Config) (f : Format) (mem : Allocator) (ctx : Context) (msg : Bytes) :
    Context × Except Errno Unit :=
  if msg.length = 0 then (ctx, .error .einval)
  else deserializeLoop cfg f mem msg.length 0 msg ctx

/-- `qm_tlv_deserialize`. -/
def deserialize (cfg : Config) (mem : Allocator) (ctx : Context) (msg : Bytes) (type : BlockType) :
    Context × Except Errno Unit :=
  match cfg.format type with
  | none => (ctx, .error .einval)
  | some f => deserializeWith cfg f mem ctx msg

/-! ### Serializing -/

def SerializeType.wants : SerializeType → Block → Bool
  | .all, _ => true
  | .update, b => b.update
  | .part, b => b.serialization

/-- The flags of a block once it is written: `qm_tlv_unpack_bytes_direct` clears
`update` in every case. -/
def SerializeType.written : SerializeType → Block → Block
  | .part, b => { b with serialization := false, update := false }
  | _, b => { b with update := false }

def Format.wire (f : Format) (b : Block) : Bytes := f.header b ++ b.value

/-- The loop, with `msg` whether there is a buffer and `offset` its size: what is
written, and the blocks. Without a buffer there is no check, and nothing changes. -/
def serializeLoop (f : Format) (msg : Bool) (type : SerializeType) (offset : Nat) :
    Nat → List Block → Bytes × List Block
  | _, [] => ([], [])
  | index, b :: rest =>
    if !type.wants b then
      let r := serializeLoop f msg type offset index rest
      (r.1, b :: r.2)
    else if msg && offset < index + f.blockLen b then ([], b :: rest)
    else
      let r := serializeLoop f msg type offset (index + (f.wire b).length) rest
      (f.wire b ++ r.1, (if msg then type.written b else b) :: r.2)

/-- `qm_tlv_serialize`: the bytes written from `msg` on, of which there are as many as
`*len` says afterwards, and the context. The buffer ends behind `len` bytes. -/
def serialize (cfg : Config) (ctx : Context) (msg : Bool) (len : Nat) (type : BlockType) (ty : SerializeType) :
    Except Errno (Bytes × Context) :=
  match cfg.format type with
  | none => .error .einval
  | some f =>
    let r := serializeLoop f msg ty len 0 ctx
    if msg ∧ len < r.1.length then .error .overrun else .ok r

theorem serialize_eq_ok {cfg : Config} {f : Format} {ctx : Context} {msg : Bool} {len : Nat} {type : BlockType}
    {ty : SerializeType} {r : Bytes × Context} (hf : cfg.format type = some f) :
    serialize cfg ctx msg len type ty = .ok r ↔
      serializeLoop f msg ty len 0 ctx = r ∧ (msg = true → r.1.length ≤ len) := by
  rw [serialize, hf]
  dsimp only
  split
  · next hover =>
    refine ⟨fun h => (by cases h), fun ⟨hr, hroom⟩ => ?_⟩
    exact absurd hover.2 (Nat.not_lt.mpr (hr ▸ hroom hover.1))
  · next hroom =>
    refine ⟨fun h => ?_, fun h => congrArg _ h.1⟩
    cases h
    exact ⟨rfl, fun hmsg => Nat.not_lt.mp fun h => hroom ⟨hmsg, h⟩⟩

end Qumios.Tlv
