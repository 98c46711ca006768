import Qumios.Ble.Common
import Qumios.Lib.Run

/-! Firmware updates over BLE: `qm_ble_ota.c`.

A request names an image; the data packets that follow carry it, numbered from
zero in rounds of sixteen. Their bytes are staged in a buffer of 256 and go on, a
full buffer at a time, to the flash (a BLE image) or to the user's callback (an
MCU image). When the announced size is reached the image can be verified.

The functions are the source's on a record for `g_qm_ble_ota`, together with the
address the flash driver writes at next (`qm_ota.c`). What a call writes, posts,
reports and asks is in its list of `Action`s. What the environment decides is part
of the event: the callback's answer, whether the response was queued, whether a
flash write succeeds, what verification says. A packet that runs past the staging
buffer, and a percentage of an empty image, are undefined: no step. -/
namespace Qumios.Ble.Ota
open Buffer Run

/-! ### The context -/

inductive Status where
  | off
  | idle
  | data
  | writeSettings
  | fwVerify
  deriving DecidableEq, Repr

def totalPackages : UInt8 := 0x10
def bufSize : Nat := 256
def rebootTime : UInt8 := 10
def maxRetryCount : Nat := 2

def typeBle : UInt8 := 1
def typeMcu : UInt8 := 2

def hashMd5 : UInt8 := 1
def hashSha1 : UInt8 := 2
def hashCrc32 : UInt8 := 3
def hashMaxSize : Nat := 64

-- `qm_ble_ota_reason_t`; the callback may answer any integer.
namespace Reason

def normal : Int := 0
def lowBattery : Int := 1
def busy : Int := 2
def verErr : Int := 3

end Reason

-- The `QM_BLE_COM_*` codes.
namespace Com

def noErr : UInt8 := 0
def errSystem : UInt8 := 1
def errInvalidPara : UInt8 := 4
def errLowBattery : UInt8 := 6
def errVer : UInt8 := 7
def errBusy : UInt8 := 8
def errVerify : UInt8 := 9

end Com

structure Ver where
  mainVer : UInt8 := 0
  subVer : UInt8 := 0
  fixVer : UInt8 := 0
  deriving DecidableEq, Repr

structure OtaFile where
  otaType : UInt8 := 0
  hash : UInt8 := 0
  hashLen : Nat := 0
  hashValue : Bytes := List.replicate hashMaxSize 0
  fileSize : Nat := 0
  ver : Ver := {}
  deriving DecidableEq, Repr

structure Context where
  otaFile : OtaFile := {}
  otaReason : Int := Reason.normal
  mcuVer : Ver := {}
  bleVer : Ver := {}
  msgId : UInt8 := 0
  otaDataBuf : Bytes := List.replicate bufSize 0
  otaBufOffset : Nat := 0
  otaDownloadFileSize : Nat := 0
  otaDownloadPercent : UInt8 := 0
  status : Status := .off
  nextSeq : UInt8 := 0
  otaTimeoutCnt : UInt8 := 0
  /-- Whether the user registered a callback. -/
  otaCb : Bool := true
  /-- `offset_addr` of the flash driver. -/
  offsetAddr : Nat := 0
  deriving DecidableEq, Repr

def Context.staged (c : Context) : Bytes := c.otaDataBuf.take c.otaBufOffset

/-- `QB_ENABLE_MCU_OTA` and `QB_ENABLE_OTA_DATA_ASYNC`. -/
structure Options where
  mcuOta : Bool
  dataAsync : Bool

/-- `qm_ble_ota_notify_t`: what the MCU callback is told about an image. -/
structure Notify where
  hash : UInt8
  hashLen : Nat
  hashValue : Bytes
  fileSize : Nat
  deriving DecidableEq, Repr

inductive CbEvent where
  | req (notify : Option Notify)
  | data
  | dataLoop
  | dataProgress
  | verify
  deriving DecidableEq, Repr

inductive Action where
  | post (msgId cmd comCode : UInt8) (payload : Bytes)
  | callback (otaType : UInt8) (event : CbEvent) (payload : Bytes)
  | flashStart
  | flashWrite (addr : Nat) (bytes : Bytes) (ok : Bool)
  /-- `QB_EFLASH`: a write failed, or did not end where the download stands. -/
  | flashError
  /-- How a request was handled: parsed, the reason of the answer, and whether the
  answer was queued. -/
  | request (parsed : Bool) (reason : Int) (posted : Bool)
  | timeout
  | otaEnd (valid : Bool)
  /-- `qm_ble_ota_reset`. -/
  | reset
  deriving DecidableEq, Repr

/-- `qm_ble_ota_reset`. -/
def reset (c : Context) : Context :=
  { c with otaFile := {}, otaBufOffset := 0, otaTimeoutCnt := 0, otaDownloadFileSize := 0, nextSeq := 0,
           status := .off }

/-- `QM_BLE_SWAP32` and a copy to the wire: most significant byte first. -/
def be32 (n : Nat) : Bytes :=
  [UInt8.ofNat (n / 2 ^ 24), UInt8.ofNat (n / 2 ^ 16), UInt8.ofNat (n / 2 ^ 8), UInt8.ofNat n]

def read32 (data : Bytes) (off : Nat) : Nat :=
  (data.getD off 0).toNat * 2 ^ 24 + (data.getD (off + 1) 0).toNat * 2 ^ 16 +
    (data.getD (off + 2) 0).toNat * 2 ^ 8 + (data.getD (off + 3) 0).toNat

/-! ### Version queries -/

def verPadding (v : Ver) : Bytes := [v.mainVer, v.subVer, v.fixVer]

/-- `qm_ble_ota_ver_handle`. -/
def verHandle (msgId : UInt8) (data : Bytes) (c : Context) : List Action :=
  if data.length > 1 || data.length = 0 then []
  else
    let queryType := data.getD 0 0
    if queryType = 0 then [.post msgId Cmd.otaQueryVer Com.noErr (verPadding c.bleVer ++ verPadding c.mcuVer)]
    else if queryType = 1 then [.post msgId Cmd.otaQueryVer Com.noErr (verPadding c.bleVer)]
    else if queryType = 2 then [.post msgId Cmd.otaQueryVer Com.noErr (verPadding c.mcuVer)]
    else [.post msgId Cmd.otaQueryVer Com.errInvalidPara []]

/-! ### Requests -/

def isValidOtaType (t : UInt8) : Bool := t == typeBle || t == typeMcu

def isValidHashType (t : UInt8) : Bool := t == hashMd5 || t == hashSha1 || t == hashCrc32

def hashLenGet (t : UInt8) : Nat :=
  if t == hashMd5 then 16 else if t == hashSha1 then 20 else if t == hashCrc32 then 4 else 0

/-- `qm_ble_ota_ver_check`: the version on the device is refused. -/
def verCheck (c : Context) : Int :=
  if c.otaFile.otaType = typeBle then
    if c.bleVer ≠ c.otaFile.ver then Reason.normal else Reason.verErr
  else if c.otaFile.otaType = typeMcu then
    if c.mcuVer ≠ c.otaFile.ver then Reason.normal else Reason.verErr
  else c.otaReason

/-- `qm_ble_ota_req_parse`. The fields read before an error stay in the file. -/
def reqParse (data : Bytes) (f : OtaFile) : OtaFile × RetCode :=
  let len := data.length
  if len = 0 then (f, .einvalidparam)
  else if !isValidOtaType (data.getD 0 0) then (f, .einvalidparam)
  else
    let f := { f with otaType := data.getD 0 0 }
    if len < 1 + 3 then (f, .einvalidparam)
    else
      let f := { f with ver := ⟨data.getD 1 0, data.getD 2 0, data.getD 3 0⟩ }
      if len < 4 + 1 then (f, .einvalidparam)
      else if !isValidHashType (data.getD 4 0) then (f, .einvalidparam)
      else
        let f := { f with hash := data.getD 4 0 }
        let hashLen := hashLenGet f.hash
        if len < 5 + hashLen then (f, .einvalidparam)
        else
          let f := { f with hashValue := splice f.hashValue 0 ((data.drop 5).take hashLen), hashLen := hashLen }
          if len < 5 + hashLen + 4 then (f, .einvalidparam)
          else
            let f := { f with fileSize := read32 data (5 + hashLen) }
            if 5 + hashLen + 4 ≠ len then (f, .einvalidparam) else (f, .success)

/-- The response `qm_ble_ota_req_rsp` posts. -/
def reqRsp (msgId comCode : UInt8) (reason : Int) : Action :=
  let (isUpgrade, comCode) : UInt8 × UInt8 :=
    if comCode = Com.noErr then
      if reason = Reason.normal then (1, Com.noErr)
      else if reason = Reason.lowBattery then (0, Com.errLowBattery)
      else if reason = Reason.busy then (0, Com.errBusy)
      else if reason = Reason.verErr then (0, Com.errVer)
      else (0, Com.errSystem)
    else (0, comCode)
  .post msgId Cmd.otaRequest comCode ([isUpgrade <<< 0, totalPackages, rebootTime] ++ [0, 0, 0, 0])

def mcuNotify (f : OtaFile) : Notify := ⟨f.hash, f.hashLen, f.hashValue.take f.hashLen, f.fileSize⟩

/-- Asking the user whether to take the image: the reason and what was called. -/
def askUser (opts : Options) (answer : Int) (c : Context) : Int × List Action :=
  if verCheck c ≠ Reason.normal then (verCheck c, [])
  else if c.otaFile.otaType = typeMcu ∧ opts.mcuOta ∧ c.otaCb then
    (answer, [.callback typeMcu (.req (some (mcuNotify c.otaFile))) []])
  else if c.otaFile.otaType = typeBle ∧ c.otaCb then (answer, [.callback typeBle (.req none) []])
  else (Reason.normal, [])

/-- `qm_ble_ota_req_handle`. The status follows from whether the response could be
queued, not from what it says. -/
def reqHandle (opts : Options) (msgId : UInt8) (data : Bytes) (answer : Int) (posted : Bool) (c : Context) :
    Context × List Action :=
  if data.length = 0 then (c, [])
  else
    let next : Status := if posted then .data else .idle
    match reqParse data c.otaFile with
    | (f, .success) =>
      let c := { c with otaFile := f }
      let (reason, asked) := askUser opts answer c
      ({ c with otaReason := reason, status := next },
        asked ++ [reqRsp msgId Com.noErr reason, .request true reason posted])
    | (f, _) =>
      ({ c with otaFile := f, status := next },
        [reqRsp msgId Com.errInvalidPara c.otaReason, .request false c.otaReason posted])

/-! ### Data -/

section Handlers
variable {opts : Options} {ok r flushOk lastOk : Bool} {msgId : UInt8} {data : Bytes} {c c' : Context} {acts : List Action}

def dataRsp (msgId comCode : UInt8) (c : Context) : Action :=
  .post msgId Cmd.otaData comCode (msgId :: be32 c.otaDownloadFileSize)

def stage (data : Bytes) (c : Context) : Context :=
  { c with otaDataBuf := splice c.otaDataBuf c.otaBufOffset data
           otaBufOffset := c.otaBufOffset + data.length
           otaDownloadFileSize := (c.otaDownloadFileSize + data.length) % 2 ^ 32 }

/-- `qm_ble_ota_flash_write` of the staged bytes, and the check of where it ended. The
driver keeps its own address and moves it on even when the write fails. -/
def writeStaged (ok : Bool) (c : Context) : Context × List Action × Bool :=
  let addr := (c.offsetAddr + c.staged.length) % 2 ^ 32
  ({ c with offsetAddr := addr }, [.flashWrite c.offsetAddr c.staged ok], ok && addr == c.otaDownloadFileSize)

theorem writeStaged_cases (h : writeStaged ok c = (c', acts, r)) :
    c' = { c with offsetAddr := (c.offsetAddr + c.staged.length) % 2 ^ 32 } ∧
    acts = [.flashWrite c.offsetAddr c.staged ok] ∧
    (r = true ↔ ok = true ∧ (c.offsetAddr + c.staged.length) % 2 ^ 32 = c.otaDownloadFileSize) := by
  obtain ⟨rfl, rfl, rfl⟩ := h
  simp

def toSink (opts : Options) (ok : Bool) (c : Context) : Context × List Action × Bool :=
  if c.otaFile.otaType = typeMcu then
    (c, if opts.mcuOta ∧ c.otaCb then [.callback typeMcu .data c.staged] else [], true)
  else if c.otaFile.otaType = typeBle then writeStaged ok c
  else (c, [], true)

theorem toSink_cases (h : toSink opts ok c = (c', acts, r)) :
    (c.otaFile.otaType = typeMcu ∧ c' = c ∧ r = true ∧
      acts = if opts.mcuOta ∧ c.otaCb then [.callback typeMcu .data c.staged] else []) ∨
    (c.otaFile.otaType = typeBle ∧ writeStaged ok c = (c', acts, r)) ∨
    (c.otaFile.otaType ≠ typeMcu ∧ c.otaFile.otaType ≠ typeBle ∧ c' = c ∧ r = true ∧ acts = []) := by
  unfold toSink at h
  split at h
  · next hmcu =>
    cases h
    exact .inl ⟨hmcu, rfl, rfl, rfl⟩
  · next hmcu =>
    split at h
    · next hble => exact .inr (.inl ⟨hble, h⟩)
    · next hble =>
      cases h
      exact .inr (.inr ⟨hmcu, hble, rfl, rfl, rfl⟩)

theorem toSink_frame (h : toSink opts ok c = (c', acts, r)) : c' = { c with offsetAddr := c'.offsetAddr } := by
  rcases toSink_cases h with ⟨-, rfl, -⟩ | ⟨-, hwrite⟩ | ⟨-, -, rfl, -⟩
  · rfl
  · rw [(writeStaged_cases hwrite).1]
  · rfl

/-- `download_size*100/file_size`, in 32 bits, kept in eight. -/
def percent (c : Context) : UInt8 := UInt8.ofNat (c.otaDownloadFileSize * 100 % 2 ^ 32 / c.otaFile.fileSize)

/-- The packet into the staging buffer, through the sink if that fills it. -/
def stagePacket (opts : Options) (ok : Bool) (data : Bytes) (c : Context) :
    Option (Context × List Action × Bool) :=
  if data.length + c.otaBufOffset ≥ bufSize then
    let dealLen := bufSize - c.otaBufOffset
    match toSink opts ok (stage (data.take dealLen) c) with
    | (c, written, false) => some (c, written, false)
    | (c, written, true) =>
      if c.otaFile.fileSize = 0 ∨ data.length - dealLen > bufSize then none
      else
        let c := { c with otaDownloadPercent := percent c }
        let progress := if c.otaCb then [.callback c.otaFile.otaType .dataProgress [c.otaDownloadPercent]] else []
        some (stage (data.drop dealLen) { c with otaBufOffset := 0 }, written ++ progress, true)
  else some (stage data c, [], true)

/-- Everything a packet can do on its way into the staging buffer. -/
theorem stagePacket_cases (h : stagePacket opts ok data c = some (c', acts, r)) :
    (data.length + c.otaBufOffset < bufSize ∧ c' = stage data c ∧ acts = [] ∧ r = true) ∨
    (bufSize ≤ data.length + c.otaBufOffset ∧ ∃ full written,
      toSink opts ok (stage (data.take (bufSize - c.otaBufOffset)) c) = (full, written, r) ∧
      ((r = false ∧ c' = full ∧ acts = written) ∨
       (r = true ∧ full.otaFile.fileSize ≠ 0 ∧ data.length - (bufSize - c.otaBufOffset) ≤ bufSize ∧
        c' = stage (data.drop (bufSize - c.otaBufOffset))
          { full with otaDownloadPercent := percent full, otaBufOffset := 0 } ∧
        acts = written ++ if full.otaCb then
          [.callback full.otaFile.otaType .dataProgress [percent full]] else []))) := by
  unfold stagePacket at h
  split at h
  · next hfull =>
    refine .inr ⟨hfull, ?_⟩
    dsimp only at h
    split at h
    · next full written hsink =>
      cases h
      exact ⟨c', acts, hsink, .inl ⟨rfl, rfl, rfl⟩⟩
    · next full written hsink =>
      split at h
      · cases h
      · next hdefined =>
        cases h
        rw [not_or] at hdefined
        exact ⟨full, written, hsink, .inr ⟨rfl, hdefined.1, Nat.not_lt.mp hdefined.2, rfl, rfl⟩⟩
  · next hfull =>
    cases h
    exact .inl ⟨Nat.not_le.mp hfull, rfl, rfl, rfl⟩

/-- The reply to the last packet of a round. -/
def loopReply (opts : Options) (msgId : UInt8) (c : Context) : Context × List Action :=
  if c.nextSeq = totalPackages then
    let c := { c with nextSeq := 0 }
    (c, if opts.dataAsync then
        if c.otaCb then [.callback c.otaFile.otaType .dataLoop []] else []
      else [dataRsp msgId Com.noErr c])
  else (c, [])

/-- The reply moves the sequence number at most. -/
theorem loopReply_cases (h : loopReply opts msgId c = (c', acts)) :
    c' = { c with nextSeq := c'.nextSeq } ∧
      (acts = [] ∨ acts = [.callback c.otaFile.otaType .dataLoop []] ∨ acts = [dataRsp msgId Com.noErr c]) := by
  unfold loopReply at h
  split at h
  · cases h
    refine ⟨rfl, ?_⟩
    split
    · split
      · exact .inr (.inl rfl)
      · exact .inl rfl
    · exact .inr (.inr rfl)
  · cases h
    exact ⟨rfl, .inl rfl⟩

/-- The last package: what is staged is flushed for a BLE image. The flush for an MCU
image stands inside that branch in the source, and is never reached. -/
def lastPackage (ok : Bool) (msgId : UInt8) (c : Context) : Context × List Action × Bool :=
  if c.otaDownloadFileSize < c.otaFile.fileSize then (c, [], true)
  else if c.otaFile.otaType = typeBle then
    if c.otaBufOffset ≠ 0 then
      match writeStaged ok c with
      | (c, written, false) => (c, written, false)
      | (c, written, true) => ({ c with status := .fwVerify }, written ++ [dataRsp msgId Com.noErr c], true)
    else ({ c with status := .fwVerify }, [dataRsp msgId Com.noErr c], true)
  else ({ c with status := .fwVerify }, [], true)

theorem lastPackage_cases (h : lastPackage ok msgId c = (c', acts, r)) :
    (c.otaDownloadFileSize < c.otaFile.fileSize ∧ c' = c ∧ acts = [] ∧ r = true) ∨
    (c.otaFile.fileSize ≤ c.otaDownloadFileSize ∧
      ((c.otaFile.otaType = typeBle ∧ c.otaBufOffset ≠ 0 ∧ ∃ after written, writeStaged ok c = (after, written, r) ∧
        ((r = false ∧ c' = after ∧ acts = written) ∨
         (r = true ∧ c' = { after with status := .fwVerify } ∧ acts = written ++ [dataRsp msgId Com.noErr after]))) ∨
       (r = true ∧ c' = { c with status := .fwVerify } ∧
        ((c.otaFile.otaType = typeBle ∧ c.otaBufOffset = 0 ∧ acts = [dataRsp msgId Com.noErr c]) ∨
         (c.otaFile.otaType ≠ typeBle ∧ acts = []))))) := by
  unfold lastPackage at h
  split at h
  · next hmore =>
    cases h
    exact .inl ⟨hmore, rfl, rfl, rfl⟩
  · next hlast =>
    refine .inr ⟨Nat.not_lt.mp hlast, ?_⟩
    split at h
    · next hble =>
      split at h
      · next hoff =>
        split at h
        · next hwrite =>
          cases h
          exact .inl ⟨hble, hoff, _, _, hwrite, .inl ⟨rfl, rfl, rfl⟩⟩
        · next hwrite =>
          cases h
          exact .inl ⟨hble, hoff, _, _, hwrite, .inr ⟨rfl, rfl, rfl⟩⟩
      · next hoff =>
        cases h
        exact .inr ⟨rfl, rfl, .inl ⟨hble, not_not.mp hoff, rfl⟩⟩
    · next hble =>
      cases h
      exact .inr ⟨rfl, rfl, .inr ⟨hble, rfl⟩⟩

theorem lastPackage_frame (h : lastPackage ok msgId c = (c', acts, r)) :
    c' = { c with status := c'.status, offsetAddr := c'.offsetAddr } := by
  rcases lastPackage_cases h with ⟨-, rfl, -⟩ | ⟨-, ⟨-, -, after, written, hwrite, hcase⟩ | ⟨-, rfl, -⟩⟩
  · rfl
  · obtain ⟨rfl, -⟩ := writeStaged_cases hwrite
    rcases hcase with ⟨-, rfl, -⟩ | ⟨-, rfl, -⟩ <;> rfl
  · rfl

def inSequence (msgId : UInt8) (c : Context) : Context :=
  { c with status := .data, nextSeq := c.nextSeq + 1, otaTimeoutCnt := 0, msgId := msgId }

/-- The packet with the expected number. -/
def acceptData (opts : Options) (msgId : UInt8) (data : Bytes) (flushOk lastOk : Bool) (c : Context) :
    Option (Context × List Action × Bool) :=
  match stagePacket opts flushOk data (inSequence msgId c) with
  | none => none
  | some (c, staging, false) => some (c, staging, false)
  | some (c, staging, true) =>
    let (c, reply) := loopReply opts msgId c
    let (c, last, ok) := lastPackage lastOk msgId c
    some (c, staging ++ reply ++ last, ok)

theorem acceptData_cases (h : acceptData opts msgId data flushOk lastOk c = some (c', acts, r)) :
    (r = false ∧ stagePacket opts flushOk data (inSequence msgId c) = some (c', acts, false)) ∨
    ∃ staged staging replied reply last,
      stagePacket opts flushOk data (inSequence msgId c) = some (staged, staging, true) ∧
      loopReply opts msgId staged = (replied, reply) ∧ lastPackage lastOk msgId replied = (c', last, r) ∧
      acts = staging ++ reply ++ last := by
  unfold acceptData at h
  split at h
  · cases h
  · next hstage =>
    cases h
    exact .inl ⟨rfl, hstage⟩
  · next hstage =>
    cases h
    exact .inr ⟨_, _, _, _, _, hstage, rfl, rfl, rfl⟩

/-- `qm_ble_ota_data_handle`, with whether it returned `QB_SUCCESS`. -/
def dataHandle (opts : Options) (msgId : UInt8) (data : Bytes) (flushOk lastOk : Bool) (c : Context) :
    Option (Context × List Action × Bool) :=
  if msgId = c.nextSeq then
    match acceptData opts msgId data flushOk lastOk c with
    | none => none
    | some (c, acts, false) =>
      some ({ c with status := .off }, acts ++ [.flashError, dataRsp msgId Com.errSystem c], false)
    | some (c, acts, true) => some (c, acts, true)
  else some ({ c with status := .idle }, [dataRsp c.msgId Com.noErr c], true)

/-! ### Verification and the timer -/

/-- `qm_ble_ota_verify_handle`, for what the callback or the hash says. -/
def verifyHandle (opts : Options) (msgId : UInt8) (valid : Bool) (c : Context) : Context × List Action :=
  let rsp : Action := .post msgId Cmd.otaVerify (if valid then Com.noErr else Com.errVerify) []
  let acts : List Action :=
    if c.otaFile.otaType = typeMcu ∧ opts.mcuOta ∧ c.otaCb then [.callback typeMcu .verify [], rsp]
    else if c.otaFile.otaType = typeBle then [rsp, .otaEnd valid]
    else []
  (reset c, acts ++ [.reset])

/-- `qm_ble_ota_timer_callback`. -/
def timerCallback (c : Context) : Context × List Action :=
  if c.status = .data then ({ c with status := .idle }, [])
  else
    let rsp := dataRsp c.msgId Com.noErr c
    let c := { c with otaTimeoutCnt := c.otaTimeoutCnt + 1 }
    if c.otaTimeoutCnt.toNat ≥ maxRetryCount then (reset c, [rsp, .timeout, .reset]) else (c, [rsp])

/-! ### The dispatcher -/

inductive Event where
  | queryVer (msgId : UInt8) (data : Bytes)
  | request (msgId : UInt8) (data : Bytes) (answer : Int) (posted : Bool)
  | data (msgId : UInt8) (data : Bytes) (flushOk lastOk : Bool)
  | verify (msgId : UInt8) (valid : Bool)
  | timer
  | disconnected
  deriving DecidableEq, Repr

/-- `qm_ble_ota_dispatcher`, the timer and the disconnection. -/
def dispatch (opts : Options) (c : Context) : Event → Option (Context × List Action)
  | .queryVer msgId data => some (c, verHandle msgId data c)
  | .request msgId data answer posted =>
    let (c, acts) := reqHandle opts msgId data answer posted { reset c with offsetAddr := 0 }
    some (c, [.reset, .flashStart] ++ acts)
  | .data msgId data flushOk lastOk =>
    if c.status ≠ .idle ∧ c.status ≠ .data then some (c, [])
    else
      match dataHandle opts msgId data flushOk lastOk c with
      | none => none
      | some (c, acts, true) => some (c, acts)
      -- the error status of the handler is lost here
      | some (c, acts, false) => some ({ c with status := .idle }, acts)
  | .verify msgId valid =>
    if c.status ≠ .fwVerify then some (c, []) else some (verifyHandle opts msgId valid c)
  | .timer => some (timerCallback c)
  | .disconnected => some (reset c, [.reset])

theorem Event.data_or (e : Event) :
    (∃ msgId data flushOk lastOk, e = .data msgId data flushOk lastOk) ∨
      ∀ msgId data flushOk lastOk, e ≠ .data msgId data flushOk lastOk := by
  cases e with
  | data msgId data flushOk lastOk => exact .inl ⟨msgId, data, flushOk, lastOk, rfl⟩
  | queryVer | request | verify | timer | disconnected => exact .inr fun _ _ _ _ => nofun

/-- What is neither a request nor a packet ends the session, or moves the status or the count of timeouts
at most. -/
theorem dispatch_cases {e : Event} (h : dispatch opts c e = some (c', acts)) :
    (∃ msgId data answer posted, e = .request msgId data answer posted) ∨
    (∃ msgId data flushOk lastOk, e = .data msgId data flushOk lastOk) ∨
    (c' = reset c ∧ .reset ∈ acts) ∨
    (.reset ∉ acts ∧
      ((c.status = .data ∧ c' = { c with status := .idle }) ∨ ∃ count, c' = { c with otaTimeoutCnt := count })) := by
  cases e with
  | queryVer msgId data =>
    cases h
    refine .inr (.inr (.inr ⟨?_, .inr ⟨_, rfl⟩⟩))
    unfold verHandle
    dsimp only
    repeat' split
    all_goals simp
  | request msgId data answer posted => exact .inl ⟨_, _, _, _, rfl⟩
  | data msgId data flushOk lastOk => exact .inr (.inl ⟨_, _, _, _, rfl⟩)
  | verify msgId valid =>
    simp only [dispatch] at h
    split at h <;> cases h
    · exact .inr (.inr (.inr ⟨List.not_mem_nil, .inr ⟨_, rfl⟩⟩))
    · exact .inr (.inr (.inl ⟨rfl, by simp⟩))
  | timer =>
    simp only [dispatch, timerCallback] at h
    split at h
    · next hdata =>
      cases h
      exact .inr (.inr (.inr ⟨List.not_mem_nil, .inl ⟨hdata, rfl⟩⟩))
    · split at h <;> cases h
      · exact .inr (.inr (.inl ⟨rfl, by simp⟩))
      · exact .inr (.inr (.inr ⟨by simp [dataRsp], .inr ⟨_, rfl⟩⟩))
  | disconnected =>
    cases h
    exact .inr (.inr (.inl ⟨rfl, List.mem_singleton_self _⟩))

theorem Context.taking_ne {c : Context} (h : c.status = .idle ∨ c.status = .data) :
    c.status ≠ .off ∧ c.status ≠ .fwVerify := by
  rcases h with h | h <;> rw [h] <;> decide

/-- Everything a data packet can do. -/
theorem dispatch_data_cases (h : dispatch opts c (.data msgId data flushOk lastOk) = some (c', acts)) :
    (¬ (c.status = .idle ∨ c.status = .data) ∧ c' = c ∧ acts = []) ∨
    ((c.status = .idle ∨ c.status = .data) ∧
      ((msgId ≠ c.nextSeq ∧ c' = { c with status := .idle } ∧ acts = [dataRsp c.msgId Com.noErr c]) ∨
       (msgId = c.nextSeq ∧ ∃ taken did r, acceptData opts msgId data flushOk lastOk c = some (taken, did, r) ∧
        ((r = true ∧ c' = taken ∧ acts = did) ∨
         (r = false ∧ c' = { taken with status := .idle } ∧
          acts = did ++ [.flashError, dataRsp msgId Com.errSystem taken]))))) := by
  simp only [dispatch] at h
  by_cases hon : c.status = .idle ∨ c.status = .data
  · refine .inr ⟨hon, ?_⟩
    rw [if_neg (by rw [← not_or]; exact not_not.mpr hon)] at h
    unfold dataHandle at h
    by_cases hseq : msgId = c.nextSeq
    · refine .inr ⟨hseq, ?_⟩
      rw [if_pos hseq] at h
      cases haccept : acceptData opts msgId data flushOk lastOk c with
      | none =>
        rw [haccept] at h
        cases h
      | some result =>
        obtain ⟨taken, did, r⟩ := result
        rw [haccept] at h
        refine ⟨taken, did, r, rfl, ?_⟩
        cases r with
        | true =>
          cases h
          exact .inl ⟨rfl, rfl, rfl⟩
        | false =>
          cases h
          exact .inr ⟨rfl, rfl, rfl⟩
    · rw [if_neg hseq] at h
      cases h
      exact .inl ⟨hseq, rfl, rfl⟩
  · rw [if_pos (not_or.mp hon)] at h
    cases h
    exact .inl ⟨hon, rfl, rfl⟩

end Handlers

/-- What a step shows: the context it met and what it did. -/
structure Shown where
  before : Context
  acts : List Action

def machine (opts : Options) : Machine Context Event Shown where
  step := fun c e => (dispatch opts c e).map fun r => (r.1, ⟨c, r.2⟩)

/-- `qm_ble_ota_init`. -/
def init (bleVer mcuVer : Ver) (otaCb : Bool) : Context :=
  { bleVer := bleVer, mcuVer := mcuVer, otaCb := otaCb }

end Qumios.Ble.Ota
