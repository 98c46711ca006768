import Qumios.Lib.Buffer
import Qumios.Lib.LittleEndian

/-! The messages of `qm_iot_subdev.c`: the reading of integers and of hexadecimal strings out of the items that
`cJSON` gives. The library is not part of the repository, so its accessors are those of a class (`Cjson`); what is
needed of them is a hypothesis (`Saturates`). -/
namespace Qumios.Subdev
open Option

open LittleEndian

/-! ### JSON -/

/-- The keys of the source, named by their texts. `cJSON_GetObjectItem` ignores case, so keys that differ in
nothing else are one key. -/
inductive Key where
  | method | code | id | params | devType | commonKey | netKey | appKey | gatewayInfo | unicastAddr | devices
  | pid | did | mac | flag | ivIndex | netIndex | elementNum | devKey | timestamp | state | rssi | ttl
  | other (text : String)
  deriving DecidableEq, Repr

/-- The items of `cJSON` and what the code asks of them. `integer` is the integer part of the number that the message
has there. -/
class Cjson (Json : Type) where
  getObjectItem : Json → Key → Option Json
  /-- The items that `cJSON_GetArraySize` counts and `cJSON_GetArrayItem` gives. -/
  children : Json → List Json
  valueint : Json → Int
  valuestring : Json → Option Bytes
  integer : Json → Option Int

export Cjson (getObjectItem children valueint valuestring integer)

/-- `valueint` of a number is the `int` that is nearest. -/
def Saturates (Json : Type) [Cjson Json] : Prop :=
  ∀ (item : Json) (value : Int), integer item = some value → valueint item = max (-2 ^ 31) (min (2 ^ 31 - 1) value)

/-- A tree as a text says it, with the integer parts of its numbers. -/
inductive Tree where
  | null
  | bool (value : Bool)
  | number (value : Int)
  | string (text : Bytes)
  | array (items : List Tree)
  | object (members : List (Key × Tree))

instance : Cjson Tree where
  getObjectItem
    | .object members, key => (members.find? fun m => m.1 = key).map (·.2)
    | _, _ => none
  children
    | .array items => items
    | .object members => members.map (·.2)
    | _ => []
  valueint
    | .number value => max (-2 ^ 31) (min (2 ^ 31 - 1) value)
    | .bool true => 1
    | _ => 0
  valuestring
    | .string text => some text
    | _ => none
  integer
    | .number value => some value
    | _ => none

theorem tree_saturates : Saturates Tree := by
  intro item value h
  cases item with
  | number n =>
    cases h
    rfl
  | null | bool | string | array | object => cases h

variable {Json : Type} [Cjson Json]

/-- `QM_EINVAL` and `QM_ENOMEM`; the sign is not looked at. -/
inductive Errno where
  | einval | enomem
  deriving DecidableEq, Repr

def cjsonStrGet (json : Json) (key : Key) : Option Bytes := (getObjectItem json key).bind valuestring

theorem bind_eq_ok_iff {α β : Type} {x : Except Errno α} {f : α → Except Errno β} {b : β} :
    (x >>= f) = .ok b ↔ ∃ a, x = .ok a ∧ f a = .ok b := by
  cases x with
  | error e => exact ⟨nofun, fun h => h.elim fun _ h => nomatch h.1⟩
  | ok a =>
    refine ⟨fun h => ⟨a, rfl, h⟩, ?_⟩
    rintro ⟨a', ha, h⟩
    obtain rfl : a = a' := Except.ok.inj ha
    exact h

/-- The value that `cjson_int_get` stores, where it returns `QM_EOK`. -/
def cjsonIntGet (json : Json) (key : Key) : Except Errno Int :=
  match getObjectItem json key with
  | none => .error .einval
  | some item => .ok (valueint item)

def objectGet (json : Json) (key : Key) : Except Errno Json :=
  match getObjectItem json key with
  | none => .error .einval
  | some item => .ok item

theorem objectGet_eq_ok_iff {json item : Json} {key : Key} :
    objectGet json key = .ok item ↔ getObjectItem json key = some item := by
  rw [objectGet]
  cases getObjectItem json key with
  | none => exact ⟨nofun, nofun⟩
  | some other => rw [Except.ok.injEq, Option.some.injEq]

theorem cjsonIntGet_eq_ok_iff {json : Json} {key : Key} {value : Int} :
    cjsonIntGet json key = .ok value ↔ ∃ item, getObjectItem json key = some item ∧ valueint item = value := by
  rw [cjsonIntGet]
  cases getObjectItem json key with
  | none => exact ⟨nofun, fun h => h.elim fun _ h => nomatch h.1⟩
  | some item => simp

/-- An `int` stored where the pointer points, in four bytes. -/
def storeInt (m : Memory) (addr : Nat) (value : Int) : Memory := store 4 m addr (value % 2 ^ 32).toNat

/-- `cjson_int_get`. -/
def intInto (json : Json) (key : Key) (m : Memory) (addr : Nat) : Except Errno Memory := do
  let value ← cjsonIntGet json key
  pure (storeInt m addr value)

/-- A loop over the items of an array, up to the first that fails. -/
def unpackLoop {α : Type} (unpack : Json → Except Errno α) : List Json → Except Errno (List α)
  | [] => .ok []
  | json :: rest => do
    let element ← unpack json
    let elements ← unpackLoop unpack rest
    pure (element :: elements)

theorem unpackLoop_forall {Item α : Type} {unpack : Item → Except Errno α} {items : List Item} {elements : List α}
    (h : unpackLoop unpack items = .ok elements) :
    List.Forall₂ (fun json element => unpack json = .ok element) items elements := by
  induction items generalizing elements with
  | nil =>
    obtain rfl : [] = elements := Except.ok.inj h
    exact .nil
  | cons json rest ih =>
    rw [unpackLoop] at h
    cases helement : unpack json with
    | error e =>
      rw [helement] at h
      cases h
    | ok element =>
      cases hrest : unpackLoop unpack rest with
      | error e =>
        rw [helement, hrest] at h
        cases h
      | ok others =>
        rw [helement, hrest] at h
        obtain rfl : element :: others = elements := Except.ok.inj h
        exact .cons helement (ih hrest)

/-! ### Hexadecimal strings -/

def hexDigit (c : UInt8) : Option UInt8 :=
  if 48 ≤ c ∧ c ≤ 57 then some (c - 48)
  else if 65 ≤ c ∧ c ≤ 70 then some (c - 65 + 10)
  else if 97 ≤ c ∧ c ≤ 102 then some (c - 97 + 10)
  else none

/-- A byte of the output, after two characters; what is no digit changes nothing. -/
def hexByte (hi lo old : UInt8) : UInt8 :=
  let high := match hexDigit hi with
    | some d => d <<< 4
    | none => old
  match hexDigit lo with
  | some d => high ||| d
  | none => high

def str2hexLoop : Bytes → Memory → Nat → Memory
  | hi :: lo :: rest, m, output => str2hexLoop rest (store 1 m output (hexByte hi lo (m output)).toNat) (output + 1)
  | _, m, _ => m

/-- `qm_str2hex`: a string of odd length leaves the output as it is. -/
def str2hex (input : Bytes) (m : Memory) (output : Nat) : Memory :=
  if input.length % 2 ≠ 0 then m else str2hexLoop input m output

/-- A hexadecimal string of a member into an array of `size` bytes, checked by half its length. -/
def hexInto (json : Json) (key : Key) (m : Memory) (addr size : Nat) : Except Errno Memory :=
  match cjsonStrGet json key with
  | none => .error .einval
  | some string => if string.length / 2 ≠ size then .error .einval else .ok (str2hex string m addr)

/-- What a hexadecimal string says: two digits to a byte, and nothing but digits. -/
def decode : Bytes → Option Bytes
  | [] => some []
  | [_] => none
  | hi :: lo :: rest => do
    let high ← hexDigit hi
    let low ← hexDigit lo
    let bytes ← decode rest
    pure ((high <<< 4 ||| low) :: bytes)

def bytesAt (m : Memory) (addr size : Nat) : Bytes := (List.range size).map fun k => m (addr + k)

theorem bytesAt_succ (m : Memory) (addr size : Nat) :
    bytesAt m addr (size + 1) = m addr :: bytesAt m (addr + 1) size := by
  simp [bytesAt, List.range_succ_eq_map, Function.comp_def, Nat.add_assoc, Nat.add_comm 1]

variable {input bytes : Bytes} {output x : Nat}

theorem decode_length (h : decode input = some bytes) : input.length = 2 * bytes.length := by
  induction input using decode.induct generalizing bytes with
  | case1 => simp [decode] at h; simp [h]
  | case2 => simp [decode] at h
  | case3 hi lo rest ih =>
    simp only [decode, bind_eq_bind, pure_def, bind_eq_some_iff, Option.some.injEq] at h
    obtain ⟨high, -, low, -, tail, htail, rfl⟩ := h
    simp only [List.length_cons, ih htail]
    omega

theorem str2hexLoop_out {m : Memory} (hout : x < output ∨ output + input.length / 2 ≤ x) :
    str2hexLoop input m output x = m x := by
  fun_induction str2hexLoop input m output with
  | case1 m output hi lo rest ih =>
    simp only [List.length_cons] at hout
    rw [ih (by omega), store_out _ (by omega)]
  | case2 => rfl

/-- Decoding is what `qm_str2hex` does, where there is something to decode. -/
theorem str2hexLoop_decode (h : decode input = some bytes) (m : Memory) (output : Nat) :
    bytesAt (str2hexLoop input m output) output bytes.length = bytes := by
  induction input using decode.induct generalizing bytes m output with
  | case1 => simp [decode] at h; simp [h, bytesAt]
  | case2 => simp [decode] at h
  | case3 hi lo rest ih =>
    simp only [decode, bind_eq_bind, pure_def, bind_eq_some_iff, Option.some.injEq] at h
    obtain ⟨high, hhigh, low, hlow, tail, htail, rfl⟩ := h
    rw [List.length_cons, bytesAt_succ, str2hexLoop, ih htail, str2hexLoop_out (by omega),
      store_in _ (Nat.le_refl _) (by omega), Nat.sub_self, byteAt_toNat]
    simp only [hexByte, hhigh, hlow]

theorem str2hex_out {m : Memory} (hout : x < output ∨ output + input.length / 2 ≤ x) :
    str2hex input m output x = m x := by
  rw [str2hex]
  split
  · rfl
  · exact str2hexLoop_out hout

theorem str2hex_decode (h : decode input = some bytes) (m : Memory) (output : Nat) :
    bytesAt (str2hex input m output) output bytes.length = bytes := by
  rw [str2hex, if_neg (by rw [decode_length h]; omega), str2hexLoop_decode h]

end Qumios.Subdev
