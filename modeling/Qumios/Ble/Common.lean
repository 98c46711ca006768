import Qumios.Lib.Buffer

/-! What the BLE modules share: the commands on the wire, the return codes, the
sources of transport errors and the build options that reach the transport. -/
namespace Qumios.Ble

/-! ### Commands -/

namespace Cmd

def auth : UInt8 := 0x01
def init : UInt8 := 0x02
def set : UInt8 := 0x81
def report : UInt8 := 0x03
def get : UInt8 := 0x82
def enterBackgroud : UInt8 := 0x83
def getSnapshot : UInt8 := 0x84
def apinfo : UInt8 := 0x85
def setRand : UInt8 := 0x86
def bindNotify : UInt8 := 0x87
def otaQueryVer : UInt8 := 0xA0
def otaRequest : UInt8 := 0xA1
def otaData : UInt8 := 0xA2
def otaVerify : UInt8 := 0xA3
def prodtst : UInt8 := 0xB0

end Cmd

/-! ### Codes -/

/-- The `QB_*` return codes the modelled functions use. -/
inductive RetCode where
  | success
  | einvalidparam
  | edatasize
  | etimeout
  | ebusy
  | einvaliddata
  | einternal
  | eforbidden
  | enull
  | emem
  | einit
  | eflash
  deriving DecidableEq, Repr

/-- The `QM_ERROR_SRC_TRANSPORT_*` sources. -/
inductive ErrorSrc where
  | txTimer
  | firstFrame
  | otherFrames
  | encrypted
  | rxBuffSize
  | pktCfmSent
  deriving DecidableEq, Repr

/-- The characteristic a message goes out on. -/
inductive TxType where
  | notification
  | indication
  deriving DecidableEq, Repr

/-! ### Build options -/

def attHdrSize : Nat := 3
def frameHdrSize : Nat := 4
def encryBlockLength : Nat := 16
def gattMtuSizeDefault : Nat := 23
def gattMtuSizeMax : Nat := 247
def frameSizeDefault : Nat := gattMtuSizeDefault - attHdrSize - frameHdrSize
def frameSizeMax : Nat := gattMtuSizeMax - attHdrSize - frameHdrSize
def transportVer : UInt8 := 0

/-- The options of `qm_kconfig` and `qm_ble_bzopt.h` that the transport depends on,
inside the ranges these give them. -/
structure Config where
  /-- `EN_LONG_MTU`. -/
  longMtu : Bool
  /-- `QB_ENABLE_AUTH`. -/
  enableAuth : Bool
  /-- `QB_MAX_FRAME_NUMBER`. -/
  maxFrameNumber : Nat
  /-- `QB_MAX_SUPPORTED_MTU`. -/
  maxSupportedMtu : Nat
  frameNumber_range : 5 ≤ maxFrameNumber ∧ maxFrameNumber ≤ 20
  supportedMtu_choice : maxSupportedMtu = gattMtuSizeDefault ∨ maxSupportedMtu = gattMtuSizeMax

/-- `QB_MAX_PAYLOAD_SIZE`, which is also `RX_BUFF_LEN`. -/
def Config.maxPayloadSize (cfg : Config) : Nat :=
  if cfg.longMtu then frameSizeMax * cfg.maxFrameNumber else frameSizeDefault * cfg.maxFrameNumber

theorem Config.maxPayloadSize_le (cfg : Config) : cfg.maxPayloadSize ≤ 4800 := by
  have := cfg.frameNumber_range
  unfold Config.maxPayloadSize
  split <;> simp only [frameSizeMax, frameSizeDefault, gattMtuSizeMax, gattMtuSizeDefault,
    attHdrSize, frameHdrSize] <;> omega

end Qumios.Ble
