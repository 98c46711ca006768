import Qumios.Subdev.Message

/-! A mesh device out of a message: `ble_mesh_dev_unpack`.

Each integer is stored as an `int`, through a pointer to a field that may be narrower, so a store may reach
into the fields behind its own. The order of the stores mends that for all fields but one: the stores for
`element_num` and `unicast_addr` come after that for `iv_index` and end inside it. The strings are checked by
half their length, so one with a character too many passes, and `qm_str2hex` leaves the field as it was. -/
namespace Qumios.Subdev

open LittleEndian

/-! ### The record -/

/-- `qm_iot_subdev_ble_mesh_dev_t`, by its bytes. -/
abbrev MeshDev := Memory

variable {Json : Type} [Cjson Json]

namespace MeshDev

/-- Where the fields stand. -/
inductive Field where
  | pid | did | flag | elementNum | unicastAddr | ivIndex | netIndex | mac | devKey
  deriving DecidableEq, Repr

def Field.offset : Field → Nat
  | pid => 0
  | did => 4
  | flag => 8
  | elementNum => 9
  | unicastAddr => 10
  | ivIndex => 12
  | netIndex => 16
  | mac => 20
  | devKey => 26

def Field.size : Field → Nat
  | pid | did | ivIndex | netIndex => 4
  | flag | elementNum => 1
  | unicastAddr => 2
  | mac => 6
  | devKey => 16

def get (dev : MeshDev) (f : Field) : Nat := load f.size dev f.offset

def bytes (dev : MeshDev) (f : Field) : Bytes := bytesAt dev f.offset f.size

end MeshDev

open MeshDev (Field)

/-! ### `ble_mesh_dev_unpack` -/

def intGet (json : Json) (key : Key) (f : Field) (dev : MeshDev) : Except Errno MeshDev := intInto json key dev f.offset

def hexGet (json : Json) (key : Key) (f : Field) (dev : MeshDev) : Except Errno MeshDev :=
  hexInto json key dev f.offset f.size

/-- One round of the loop, on the zeros of `memset`. -/
def devUnpack (json : Json) : Except Errno MeshDev := do
  let dev ← intGet json .pid .pid fun _ => 0
  let dev ← intGet json .did .did dev
  let dev ← intGet json .flag .flag dev
  let dev ← intGet json .ivIndex .ivIndex dev
  let dev ← intGet json .netIndex .netIndex dev
  let dev ← intGet json .elementNum .elementNum dev
  let dev ← intGet json .unicastAddr .unicastAddr dev
  let dev ← hexGet json .mac .mac dev
  hexGet json .devKey .devKey dev

/-! ### What a message says of a device -/

/-- The members of a device in a message. -/
structure Members where
  pid : Nat
  did : Nat
  flag : Nat
  elementNum : Nat
  unicastAddr : Nat
  ivIndex : Nat
  netIndex : Nat
  mac : Bytes
  devKey : Bytes

/-- The item has these members, as numbers and strings. -/
structure Describes (json : Json) (d : Members) : Prop where
  pid : (getObjectItem json .pid).bind integer = some (d.pid : Int)
  did : (getObjectItem json .did).bind integer = some (d.did : Int)
  flag : (getObjectItem json .flag).bind integer = some (d.flag : Int)
  elementNum : (getObjectItem json .elementNum).bind integer = some (d.elementNum : Int)
  unicastAddr : (getObjectItem json .unicastAddr).bind integer = some (d.unicastAddr : Int)
  ivIndex : (getObjectItem json .ivIndex).bind integer = some (d.ivIndex : Int)
  netIndex : (getObjectItem json .netIndex).bind integer = some (d.netIndex : Int)
  mac : cjsonStrGet json .mac = some d.mac
  devKey : cjsonStrGet json .devKey = some d.devKey

/-- The integers are in the range of the fields. -/
structure Members.InRange (d : Members) : Prop where
  pid : d.pid < 2 ^ 32
  did : d.did < 2 ^ 32
  flag : d.flag < 2 ^ 8
  elementNum : d.elementNum < 2 ^ 8
  unicastAddr : d.unicastAddr < 2 ^ 16
  ivIndex : d.ivIndex < 2 ^ 32
  netIndex : d.netIndex < 2 ^ 32

/-- The record holds what the message says: the numbers are the members, and the strings are hexadecimal and decode
to the fields. -/
structure Preserves (d : Members) (dev : MeshDev) : Prop where
  pid : dev.get .pid = d.pid
  did : dev.get .did = d.did
  flag : dev.get .flag = d.flag
  elementNum : dev.get .elementNum = d.elementNum
  unicastAddr : dev.get .unicastAddr = d.unicastAddr
  ivIndex : dev.get .ivIndex = d.ivIndex
  netIndex : dev.get .netIndex = d.netIndex
  mac : decode d.mac = some (dev.bytes .mac)
  devKey : decode d.devKey = some (dev.bytes .devKey)

/-- The members that the code keeps. -/
structure Members.Plain (d : Members) : Prop where
  pid : d.pid < 2 ^ 31
  did : d.did < 2 ^ 31
  ivIndex : d.ivIndex < 2 ^ 31
  ivIndex_low : d.ivIndex % 2 ^ 16 = 0
  netIndex : d.netIndex < 2 ^ 31
  mac : (decode d.mac).isSome
  devKey : (decode d.devKey).isSome

/-! ### The stores -/

/-- What is stored for a member, as an `int`. -/
def stored (value : Nat) : Nat := min (2 ^ 31 - 1) value

theorem storeInt_valueint (hint : Saturates Json) {item : Json} {value : Nat} (h : integer item = some (value : Int))
    (m : Memory) (addr : Nat) : storeInt m addr (valueint item) = store 4 m addr (stored value) := by
  have hvalue : (valueint item % 2 ^ 32).toNat = stored value := by
    rw [hint item value h, stored]
    omega
  rw [storeInt, hvalue]

variable {value : Nat} {json : Json} {d : Members}

theorem stored_of_lt (h : value < 2 ^ 31) : stored value = value := by
  rw [stored]
  omega

theorem stored_lt (value : Nat) : stored value < 256 ^ 4 := by
  rw [stored]
  omega

theorem stored_eq_iff : stored value = value ↔ value < 2 ^ 31 := by
  rw [stored]
  omega

/-- The record after the stores of the integers, in the order of the source. -/
def ints (d : Members) : MeshDev :=
  let dev := store 4 (fun _ => 0) 0 (stored d.pid)
  let dev := store 4 dev 4 (stored d.did)
  let dev := store 4 dev 8 (stored d.flag)
  let dev := store 4 dev 12 (stored d.ivIndex)
  let dev := store 4 dev 16 (stored d.netIndex)
  let dev := store 4 dev 9 (stored d.elementNum)
  store 4 dev 10 (stored d.unicastAddr)

def record (d : Members) : MeshDev := str2hex d.devKey (str2hex d.mac (ints d) 20) 26

theorem intGet_eq (hint : Saturates Json) {key : Key} (h : (getObjectItem json key).bind integer = some (value : Int))
    (f : Field) (dev : MeshDev) : intGet json key f dev = .ok (store 4 dev f.offset (stored value)) := by
  obtain ⟨item, hitem, hinteger⟩ := Option.bind_eq_some_iff.mp h
  rw [intGet, intInto, cjsonIntGet, hitem, ← storeInt_valueint hint hinteger]
  rfl

theorem hexGet_eq {key : Key} {string : Bytes} (h : cjsonStrGet json key = some string) (f : Field)
    (dev : MeshDev) :
    hexGet json key f dev =
      if string.length / 2 ≠ f.size then .error .einval else .ok (str2hex string dev f.offset) := by
  rw [hexGet, hexInto, h]

theorem devUnpack_eq (hint : Saturates Json) (h : Describes json d) :
    devUnpack json =
      if d.mac.length / 2 = 6 ∧ d.devKey.length / 2 = 16 then .ok (record d) else .error .einval := by
  have hstore {key : Key} {value : Nat} := @intGet_eq Json _ value json hint key
  simp only [devUnpack, hstore h.pid, hstore h.did, hstore h.flag, hstore h.ivIndex, hstore h.netIndex,
    hstore h.elementNum, hstore h.unicastAddr, hexGet_eq h.mac, hexGet_eq h.devKey, bind, Except.bind]
  by_cases hmac : d.mac.length / 2 = 6
  · by_cases hkey : d.devKey.length / 2 = 16
    · simp [hmac, hkey, Field.size, Field.offset, record, ints]
    · simp [hmac, hkey, Field.size]
  · simp [hmac, Field.size]

/-! ### The fields of the record -/

section

variable (d : Members)

theorem record_get {f : Field} {value : Nat} (hf : f.offset + f.size ≤ 20)
    (hbytes : ∀ k < f.size, ints d (f.offset + k) = byteAt value k) :
    (record d).get f = value % 256 ^ f.size :=
  load_of_bytes fun k hk => by
    rw [record, str2hex_out (by omega), str2hex_out (by omega), hbytes k hk]

theorem record_pid : (record d).get .pid = stored d.pid := by
  refine (record_get d (by decide) fun k hk => ?_).trans (Nat.mod_eq_of_lt (stored_lt d.pid))
  have hwidth : k < 4 := hk
  rw [Field.offset, ints, store_out _ (by omega), store_out _ (by omega), store_out _ (by omega),
    store_out _ (by omega), store_out _ (by omega), store_out _ (by omega), store_in _ (by omega) (by omega),
    Nat.add_sub_cancel_left]

theorem record_did : (record d).get .did = stored d.did := by
  refine (record_get d (by decide) fun k hk => ?_).trans (Nat.mod_eq_of_lt (stored_lt d.did))
  have hwidth : k < 4 := hk
  rw [Field.offset, ints, store_out _ (by omega), store_out _ (by omega), store_out _ (by omega),
    store_out _ (by omega), store_out _ (by omega), store_in _ (by omega) (by omega), Nat.add_sub_cancel_left]

theorem record_netIndex : (record d).get .netIndex = stored d.netIndex := by
  refine (record_get d (by decide) fun k hk => ?_).trans (Nat.mod_eq_of_lt (stored_lt d.netIndex))
  have hwidth : k < 4 := hk
  rw [Field.offset, ints, store_out _ (by omega), store_out _ (by omega), store_in _ (by omega) (by omega),
    Nat.add_sub_cancel_left]

theorem record_flag : (record d).get .flag = stored d.flag % 256 := by
  refine record_get d (by decide) fun k hk => ?_
  have hwidth : k < 1 := hk
  rw [Field.offset, ints, store_out _ (by omega), store_out _ (by omega), store_out _ (by omega),
    store_out _ (by omega), store_in _ (by omega) (by omega), Nat.add_sub_cancel_left]

theorem record_elementNum : (record d).get .elementNum = stored d.elementNum % 256 := by
  refine record_get d (by decide) fun k hk => ?_
  have hwidth : k < 1 := hk
  rw [Field.offset, ints, store_out _ (by omega), store_in _ (by omega) (by omega), Nat.add_sub_cancel_left]

theorem record_unicastAddr : (record d).get .unicastAddr = stored d.unicastAddr % 65536 := by
  refine record_get d (by decide) fun k hk => ?_
  have hwidth : k < 2 := hk
  rw [Field.offset, ints, store_in _ (by omega) (by omega), Nat.add_sub_cancel_left]

/-- The high bytes of `unicast_addr`, which are zero, are the low ones of `iv_index`. -/
theorem record_ivIndex (hunicast : d.unicastAddr < 2 ^ 16) :
    (record d).get .ivIndex = stored d.ivIndex / 2 ^ 16 * 2 ^ 16 := by
  have hstored := stored_lt d.ivIndex
  have hsmall : stored d.unicastAddr < 256 ^ 2 := by
    rw [stored]
    omega
  have hlow {place : Nat} (hplace : place = 0 ∨ place = 1) : byteAt (stored d.ivIndex / 2 ^ 16 * 2 ^ 16) place = 0 := by
    rcases hplace with rfl | rfl
    · rw [byteAt, show stored d.ivIndex / 2 ^ 16 * 2 ^ 16 / 256 ^ 0 = 256 * (256 * (stored d.ivIndex / 2 ^ 16)) by omega]
      exact UInt8.toNat_inj.mp (by rw [UInt8.toNat_ofNat', Nat.mul_mod_right]; rfl)
    · rw [byteAt, show stored d.ivIndex / 2 ^ 16 * 2 ^ 16 / 256 ^ 1 = 256 * (stored d.ivIndex / 2 ^ 16) by omega]
      exact UInt8.toNat_inj.mp (by rw [UInt8.toNat_ofNat', Nat.mul_mod_right]; rfl)
  refine (record_get d (by decide) fun k hk => ?_).trans (Nat.mod_eq_of_lt ?_)
  · have hwidth : k < 4 := hk
    rw [Field.offset, ints]
    by_cases hover : k < 2
    · rw [store_in _ (by omega) (by omega), hlow (by omega), byteAt_of_lt]
      exact hsmall.trans_le (Nat.pow_le_pow_right (by decide) (by omega))
    · rw [store_out _ (by omega), store_out _ (by omega), store_out _ (by omega), store_in _ (by omega) (by omega),
        Nat.add_sub_cancel_left, byteAt, byteAt]
      obtain rfl | rfl : k = 2 ∨ k = 3 := by omega
      · rw [show stored d.ivIndex / 2 ^ 16 * 2 ^ 16 / 256 ^ 2 = stored d.ivIndex / 256 ^ 2 by omega]
      · rw [show stored d.ivIndex / 2 ^ 16 * 2 ^ 16 / 256 ^ 3 = stored d.ivIndex / 256 ^ 3 by omega]
  · show _ < 256 ^ 4
    omega

end

theorem record_mac {bytes : Bytes} (h : decode d.mac = some bytes) (hlength : bytes.length = 6) :
    (record d).bytes .mac = bytes := by
  have hdecoded := str2hex_decode h (ints d) 20
  rw [hlength] at hdecoded
  rw [MeshDev.bytes, ← hdecoded]
  refine List.map_congr_left fun k hk => ?_
  have hin : k < 6 := List.mem_range.mp hk
  rw [record, str2hex_out (by rw [Field.offset]; omega), Field.offset]

theorem record_devKey {bytes : Bytes} (h : decode d.devKey = some bytes) (hlength : bytes.length = 16) :
    (record d).bytes .devKey = bytes := by
  have hdecoded := str2hex_decode h (str2hex d.mac (ints d) 20) 26
  rwa [hlength] at hdecoded

/-- **A device and its record**: of a device with integers in range, the record holds what the message says exactly if
the members are plain. -/
theorem preserves_iff {dev : MeshDev} (hint : Saturates Json) (h : Describes json d) (hrange : d.InRange)
    (hunpack : devUnpack json = .ok dev) : Preserves d dev ↔ d.Plain := by
  rw [devUnpack_eq hint h] at hunpack
  split at hunpack
  case isFalse => cases hunpack
  case isTrue hlengths =>
    obtain rfl : record d = dev := Except.ok.inj hunpack
    obtain ⟨hpid, hdid, hflag, helement, hunicast, hiv, hnet⟩ := hrange
    have hivIndex := record_ivIndex d hunicast
    constructor
    · intro hp
      have hlow : stored d.ivIndex / 2 ^ 16 * 2 ^ 16 = d.ivIndex := hivIndex.symm.trans hp.ivIndex
      have hsaturated : stored d.ivIndex < 2 ^ 31 := by
        rw [stored]
        omega
      exact
        { pid := stored_eq_iff.mp ((record_pid d).symm.trans hp.pid)
          did := stored_eq_iff.mp ((record_did d).symm.trans hp.did)
          ivIndex := by omega
          ivIndex_low := by omega
          netIndex := stored_eq_iff.mp ((record_netIndex d).symm.trans hp.netIndex)
          mac := by rw [hp.mac]; rfl
          devKey := by rw [hp.devKey]; rfl }
    · intro hp
      obtain ⟨mac, hmac⟩ := Option.isSome_iff_exists.mp hp.mac
      obtain ⟨devKey, hdevKey⟩ := Option.isSome_iff_exists.mp hp.devKey
      have hmacLength := decode_length hmac
      have hkeyLength := decode_length hdevKey
      have hlow := hp.ivIndex_low
      exact
        { pid := (record_pid d).trans (stored_of_lt hp.pid)
          did := (record_did d).trans (stored_of_lt hp.did)
          flag := by rw [record_flag, stored_of_lt (by omega)]; exact Nat.mod_eq_of_lt hflag
          elementNum := by rw [record_elementNum, stored_of_lt (by omega)]; exact Nat.mod_eq_of_lt helement
          unicastAddr := by rw [record_unicastAddr, stored_of_lt (by omega)]; exact Nat.mod_eq_of_lt hunicast
          ivIndex := by rw [hivIndex, stored_of_lt hp.ivIndex]; omega
          netIndex := (record_netIndex d).trans (stored_of_lt hp.netIndex)
          mac := by rw [record_mac hmac (by omega), hmac]
          devKey := by rw [record_devKey hdevKey (by omega), hdevKey] }

end Qumios.Subdev
