import Qumios.Lib.Buffer
import Qumios.Lib.Run

/-! Advertisements of remote controls (`ble_remoter.c`).

A remote repeats each of its advertisements many times. A table of recent senders filters the
repeats: an advertisement is entered in the slot of its sender, in a free slot, or in the one
that was used least recently, and the record is then dispatched to the commands that want it.

`ble_scan_msg_merge` keeps two pointers. One is the slot it picked; the other ran through the
table and stands, if the sender was not found, at the last slot. The sequence number goes to the
first, everything else to the second, and the first is returned. The search for a free slot
marks all of them as used. -/
namespace Qumios.Remoter
open Buffer Run

/-! ### Time -/

/-- `qm_utils_time_left`, at a time. -/
def timeLeft (now deadline : UInt32) : UInt32 := if now - deadline < 2147483647 then 0 else deadline - now

/-- `RECV_DATA_MSG_DATA_TIMEOUT`. -/
def dataTimeoutMs : Nat := 1000

/-- `RECV_DATA_MSG_QUEUE_TIMEOUT`. -/
def queueTimeoutMs : Nat := 10000

def clock (ms : Nat) : UInt32 := UInt32.ofNat ms

/-- Time is left as long as the deadline has not come. -/
theorem timeLeft_ne_zero {start now : Nat} (hstart : start ≤ now) (hnow : now < start + dataTimeoutMs) :
    timeLeft (clock now) (clock (start + dataTimeoutMs)) ≠ 0 := by
  unfold timeLeft clock dataTimeoutMs at *
  split
  case isTrue h =>
    rw [UInt32.lt_iff_toNat_lt, UInt32.toNat_sub, UInt32.toNat_ofNat', UInt32.toNat_ofNat'] at h
    have hhalf : (2147483647 : UInt32).toNat = 2147483647 := rfl
    omega
  case isFalse =>
    intro heq
    have hnat := congrArg UInt32.toNat heq
    rw [UInt32.toNat_sub, UInt32.toNat_ofNat', UInt32.toNat_ofNat', UInt32.toNat_zero] at hnat
    omega

/-! ### Advertisements and the table -/

/-- `BLE_REMOTER_RECV_DATA_MIN_NUM`. -/
def minNum : Nat := 17

/-- `BLE_REMOTER_RECV_DATA_MAX_NUM`. -/
def maxNum : Nat := 31

/-- `BLE_REMOTER_PARAM_MAX_LEN`. -/
def paramMaxLen : Nat := maxNum - minNum

/-- What a scan receives. -/
structure Adv where
  bytes : Bytes
  fits : bytes.length ≤ maxNum

namespace Adv

def byte (adv : Adv) (offset : Nat) : UInt8 := adv.bytes.getD offset 0

def opcode (adv : Adv) : UInt8 := adv.byte 8

def sno (adv : Adv) : UInt8 := adv.byte 9

def mac (adv : Adv) : Bytes := (adv.bytes.drop 10).take 6

def groupId (adv : Adv) : UInt8 := adv.byte 16

def param (adv : Adv) : Bytes := adv.bytes.drop 17

end Adv

/-- `ble_remoter_filter_t`. -/
structure Slot where
  isUse : Bool
  sno : UInt8
  listTimeout : UInt32
  dataTimeout : UInt32
  bleAddr : Bytes
  recvLen : UInt8
  recvData : Bytes
  deriving DecidableEq, Repr

def zeroAddr : Bytes := List.replicate 6 0

/-- A slot as `ble_remoter_init` leaves it. -/
def Slot.zero : Slot := ⟨false, 0, 0, 0, zeroAddr, 0, List.replicate maxNum 0⟩

/-- What the first loop comes to. -/
inductive Scan where
  /-- The sender is in the table, and the advertisement is a repeat. -/
  | repeated
  | found (index : Nat)
  | missing (oldest : Option Nat)
  deriving DecidableEq, Repr

/-- The first loop of `ble_scan_msg_merge`: the slot of the sender, and on the way the one that is
next to run out. -/
def scan (now : UInt32) (adv : Adv) : List Slot → Nat → UInt32 → Option Nat → Scan
  | [], _, _, oldest => .missing oldest
  | slot :: rest, index, timeout, oldest =>
    if slot.isUse then
      let left := timeLeft now slot.listTimeout
      let timeout' := if timeout > left then left else timeout
      let oldest' := if timeout > left then some index else oldest
      if slot.bleAddr ≠ adv.mac then scan now adv rest (index + 1) timeout' oldest'
      else if slot.sno = adv.sno ∧ timeLeft now slot.dataTimeout ≠ 0 then .repeated
      else .found index
    else scan now adv rest (index + 1) timeout oldest

def takeUnused : List Slot → Nat → Option Nat → List Slot × Option Nat
  | [], _, last => ([], last)
  | slot :: rest, index, last =>
    let next := takeUnused rest (index + 1) (if slot.isUse then last else some index)
    ({ slot with isUse := true } :: next.1, next.2)

/-- What is written through `data_msg`. -/
def Slot.fill (slot : Slot) (now : UInt32) (adv : Adv) : Slot :=
  { slot with
    dataTimeout := now + UInt32.ofNat dataTimeoutMs
    listTimeout := now + UInt32.ofNat queueTimeoutMs
    bleAddr := adv.mac
    recvLen := UInt8.ofNat adv.bytes.length
    recvData := splice slot.recvData 0 adv.bytes }

/-- From `__copy` on: through `last_data_msg`, then through `data_msg`. -/
def copy (filter : List Slot) (last data : Nat) (now : UInt32) (adv : Adv) : List Slot :=
  (filter.modify last fun slot => { slot with sno := adv.sno }).modify data fun slot => slot.fill now adv

/-- `ble_scan_msg_merge`: the table, and the index of the record that is returned. -/
def bleScanMsgMerge (filter : List Slot) (now : UInt32) (adv : Adv) : List Slot × Option Nat :=
  if adv.bytes.length < minNum then (filter, none)
  else
    match scan now adv filter 0 0xFFFFFFF none with
    | .repeated => (filter, none)
    | .found index => (copy filter index index now adv, some index)
    | .missing oldest =>
      match takeUnused filter 0 oldest with
      | (filter, none) => (filter, none)
      | (filter, some last) => (copy filter last (filter.length - 1) now adv, some last)

/-! ### Commands -/

inductive CmdType where
  | pair
  | comm
  | factory
  deriving DecidableEq, Repr

/-- `ble_remoter_cmd_table_t`: whether there is a `recv`. -/
structure Cmd where
  cmdType : CmdType
  opcode : UInt8
  recv : Bool
  deriving DecidableEq, Repr

/-- The pairing and factory parts of `ble_remoter_handle_t`. -/
structure Pairing where
  enable : Bool
  timeout : UInt32
  lastIndex : Nat
  /-- `already_pair` and `ble_addr`. -/
  addrs : List (Bool × Bytes)
  factoryEnable : Bool
  facAddr : Bytes
  deriving DecidableEq, Repr

/-- `ble_remoter_pair_recv`. -/
def pairRecv (now : UInt32) (p : Pairing) (record : Slot) : Pairing × Bool :=
  if !p.enable then (p, false)
  else if timeLeft now p.timeout = 0 then ({ p with enable := false }, false)
  else
    let index := (p.addrs.findIdx? fun a => !a.1).getD ((p.lastIndex + 1) % p.addrs.length)
    ({ p with lastIndex := index, addrs := p.addrs.set index (true, record.bleAddr) }, true)

/-- `ble_remoter_comm_recv`. -/
def commRecv (p : Pairing) (record : Slot) : Bool := p.addrs.any fun a => a.1 && a.2 = record.bleAddr

/-- `ble_remoter_factory_recv`. -/
def factoryRecv (p : Pairing) (record : Slot) : Bool := p.factoryEnable && p.facAddr = record.bleAddr

/-- `g_remote_table`. -/
def remoteTable (now : UInt32) (p : Pairing) (record : Slot) : CmdType → Pairing × Bool
  | .pair => pairRecv now p record
  | .comm => (p, commRecv p record)
  | .factory => (p, factoryRecv p record)

/-- A call of `recv`: the entry of the table, and what it is called with. -/
structure Callback where
  index : Nat
  opcode : UInt8
  bleAddr : Bytes
  groupId : UInt8
  param : Bytes
  deriving DecidableEq, Repr

/-- `param_len`. -/
def Slot.paramLen (record : Slot) : UInt8 := record.recvLen - UInt8.ofNat minNum

/-- The payload of a record. -/
def Slot.callback (record : Slot) (index : Nat) : Callback where
  index := index
  opcode := record.recvData.getD 8 0
  bleAddr := record.bleAddr
  groupId := record.recvData.getD 16 0
  param := (record.recvData.drop 17).take record.paramLen.toNat

/-- The loop of `ble_scan_read` over `cmd_table`. `none` where the parameters do not fit into the
payload. -/
def dispatch (now : UInt32) (record : Slot) : List Cmd → Nat → Pairing → Option (Pairing × List Callback)
  | [], _, p => some (p, [])
  | cmd :: rest, index, p =>
    if cmd.opcode ≠ 0 ∧ cmd.opcode ≠ record.recvData.getD 8 0 then dispatch now record rest (index + 1) p
    else
      match remoteTable now p record cmd.cmdType with
      | (p, ok) =>
        if ok && cmd.recv then
          if record.paramLen.toNat ≤ paramMaxLen then
            (dispatch now record rest (index + 1) p).map fun r => (r.1, record.callback index :: r.2)
          else none
        else dispatch now record rest (index + 1) p

/-! ### The receiver -/

structure Config where
  filterNum : Nat
  pos : 0 < filterNum
  bigEndianPid : Bool
  pid : UInt16
  subtype : UInt8
  fmsk : UInt8
  cmdTable : List Cmd

/-- `ble_scan_header_mattch`. -/
def headerMatch (cfg : Config) (adv : Adv) : Bool :=
  let cid : UInt8 × UInt8 := if cfg.bigEndianPid then (0xF0, 0x18) else (0x18, 0xF0)
  minNum ≤ adv.bytes.length && adv.byte 1 = 0xFF && (adv.byte 2 = cid.1 && adv.byte 3 = cid.2) &&
    (adv.byte 6).toNat = cfg.pid.toNat && (adv.byte 4).toNat = (3 ||| cfg.subtype.toNat <<< 4) &&
    adv.byte 5 = cfg.fmsk

structure State where
  /-- The time of the last event. -/
  now : Nat
  filter : List Slot
  pairing : Pairing

def init (cfg : Config) (pairing : Pairing) : State := ⟨0, List.replicate cfg.filterNum .zero, pairing⟩

/-- An advertisement comes in. -/
structure Event where
  now : Nat
  adv : Adv

inductive Output where
  /-- No record comes of it. -/
  | ignored
  | dispatched (callbacks : List Callback)
  /-- More parameters are copied than the payload has room for. -/
  | fault
  deriving DecidableEq, Repr

/-- `ble_scan_read`. -/
def bleScanRead (cfg : Config) (s : State) (now : Nat) (adv : Adv) : State × Output :=
  if headerMatch cfg adv then
    match bleScanMsgMerge s.filter (clock now) adv with
    | (filter, none) => ({ s with now := now, filter := filter }, .ignored)
    | (filter, some index) =>
      match dispatch (clock now) (filter.getD index .zero) cfg.cmdTable 0 s.pairing with
      | none => ({ s with now := now, filter := filter }, .fault)
      | some (pairing, callbacks) => (⟨now, filter, pairing⟩, .dispatched callbacks)
  else ({ s with now := now }, .ignored)

def step (cfg : Config) (s : State) (e : Event) : Option (State × Output) :=
  if s.now ≤ e.now then some (bleScanRead cfg s e.now e.adv) else none

def machine (cfg : Config) : Machine State Event Output := ⟨step cfg⟩

end Qumios.Remoter
