import Qumios.Ble.Common

/-! The BLE transport: `qm_ble_transport.c`.

A message goes out as packets of a 4-byte header and a payload; the header names
the message, the command, the index of the last frame and the index of this one,
both indices in four bits. With a session key every payload but an `AUTH` one is
padded to whole AES blocks and encrypted. The receiver collects the payloads of
frames `0, 1, …, total_frame` in `rx.buff` and hands the message to the
dispatcher, or drops what it has on anything unexpected.

The functions below are the source's, on a record for `g_qm_transport`. What the
source writes to the air, reports upwards or signals is in the list of `Output`s.
The cipher of the HAL is a parameter (`Aes`), and so is the outcome of each
attempt to hand a packet to the characteristic (`Link`). `tx.buff` is not part of
the state: `build_packet` fills every byte that is then sent. -/
namespace Qumios.Ble.Transport
open Buffer

/-! ### The state -/

/-- `qm_ble_aes128_cbc_encrypt` and `qm_ble_aes128_cbc_decrypt` under a context,
which may be the null pointer, on whole blocks. -/
structure Aes (κ : Type) where
  encrypt : Option κ → Bytes → Bytes
  decrypt : Option κ → Bytes → Bytes

/-- Whether the `n`-th attempt to send a packet succeeds. -/
abbrev Link := Nat → Bool

structure Tx where
  /-- The bytes `tx.data` points to. -/
  data : Bytes := []
  len : Nat := 0
  bytesSent : Nat := 0
  encrypted : Bool := false
  msgId : UInt8 := 0
  cmd : UInt8 := 0
  totalFrame : Nat := 0
  frameSeq : Nat := 0
  pktReq : Nat := 0
  pktCfm : Nat := 0
  activeFunc : TxType := .notification
  /-- Packets offered to the characteristic so far: the index into the `Link`. -/
  attempts : Nat := 0

structure Rx where
  buff : Bytes
  bytesReceived : Nat := 0
  msgId : UInt8 := 0
  cmd : UInt8 := 0
  totalFrame : UInt8 := 0
  frameSeq : UInt8 := 0

structure State (κ : Type) where
  tx : Tx
  rx : Rx
  txMsgId : UInt8 := 0
  maxPktSize : Nat
  pKey : Option κ := none
  pAesCtx : Option κ := none

/-- Who the dispatcher hands a message to. -/
inductive Handler where
  | auth
  | event
  deriving DecidableEq, Repr

/-- What `trans_rx_dispatcher` hands on. The authentication handler takes only the
command and the payload. -/
structure Message where
  handler : Handler
  msgId : UInt8
  cmd : UInt8
  frames : UInt8
  payload : Bytes
  deriving DecidableEq, Repr

inductive Output where
  | packet (bytes : Bytes)
  | txDone
  | err (src : ErrorSrc) (code : RetCode)
  deriving DecidableEq, Repr

variable {κ : Type}

/-- `qm_ble_transport_init`. -/
def init (cfg : Config) : State κ where
  tx := {}
  rx := { buff := List.replicate cfg.maxPayloadSize 0 }
  maxPktSize := gattMtuSizeDefault - 3

def resetTx (t : State κ) : State κ :=
  { t with tx := { t.tx with len := 0, bytesSent := 0, msgId := 0, cmd := 0, totalFrame := 0,
                             frameSeq := 0, pktReq := 0, pktCfm := 0 } }

def Rx.reset (r : Rx) : Rx :=
  { r with cmd := 0, totalFrame := 0, frameSeq := 0, bytesReceived := 0 }

def resetRx (t : State κ) : State κ := { t with rx := t.rx.reset }

/-- `qm_ble_transport_reset`; the session key is kept, its context is not. -/
def reset (t : State κ) : State κ := { resetRx (resetTx t) with pAesCtx := none }

/-- `qm_ble_transport_update_key`; a context is what `qm_ble_aes128_init` makes of the key. -/
def updateKey (key : κ) (t : State κ) : State κ :=
  { t with pKey := some key, pAesCtx := some key }

/-- The packet size `qm_ble_trans_update_mtu` derives from the MTU of the link. -/
def mtuPktSize (mtu : Nat) : Nat :=
  let maxPayloadLen := (mtu + 65536 - attHdrSize - frameHdrSize) % 65536
  (maxPayloadLen / encryBlockLength * encryBlockLength + frameHdrSize) % 65536

/-- `qm_ble_trans_update_mtu`, for the MTU the stack reports. -/
def updateMtu (mtu : Nat) (t : State κ) : State κ := { t with maxPktSize := mtuPktSize mtu }

def onTxTimeout (t : State κ) : State κ × List Output :=
  (resetTx t, [.err .txTimer .etimeout])

def onRxTimeout (t : State κ) : State κ := resetRx t

def isValidRxCommand (cmd : UInt8) : Bool :=
  cmd == Cmd.auth || cmd == Cmd.init || cmd == Cmd.set || cmd == Cmd.get ||
  cmd == Cmd.enterBackgroud || cmd == Cmd.getSnapshot || cmd == Cmd.report ||
  cmd == Cmd.setRand || cmd == Cmd.bindNotify || cmd == Cmd.apinfo ||
  cmd == Cmd.otaQueryVer || cmd == Cmd.otaRequest || cmd == Cmd.otaData ||
  cmd == Cmd.otaVerify || cmd == Cmd.prodtst

def isValidTxCommand (cmd : UInt8) : Bool :=
  cmd == Cmd.auth || cmd == Cmd.init || cmd == Cmd.set || cmd == Cmd.report || cmd == Cmd.get ||
  cmd == Cmd.enterBackgroud || cmd == Cmd.getSnapshot || cmd == Cmd.bindNotify ||
  cmd == Cmd.apinfo || cmd == Cmd.otaQueryVer || cmd == Cmd.otaRequest || cmd == Cmd.otaData ||
  cmd == Cmd.otaVerify || cmd == Cmd.prodtst

/-! ### Sending -/

def headerSize : Nat := 4
def aesBlkSize : Nat := 16

/-- `do_encrypt` on the payload of a packet: what stands in the packet afterwards
and the number of bytes it was padded by. -/
def doEncrypt (aes : Aes κ) (ctx : Option κ) (data : Bytes) : Bytes × Nat :=
  let len := data.length
  if len > frameSizeMax then (data, 0)
  else
    let bytesToPad := (aesBlkSize - len % aesBlkSize) % aesBlkSize
    let padded := data ++ List.replicate bytesToPad (UInt8.ofNat bytesToPad)
    ((aes.encrypt ctx padded).take padded.length, bytesToPad)

/-- The header `build_packet` writes, for a frame whose length byte is `len`. -/
def header (tx : Tx) (len : UInt8) : Bytes :=
  [ ((transportVer &&& 0x7) <<< 5) ||| ((if tx.encrypted then 1 else 0 : UInt8) <<< 4) ||| (tx.msgId &&& 0xF),
    tx.cmd,
    ((UInt8.ofNat tx.totalFrame &&& 0x0F) <<< 4) ||| (UInt8.ofNat tx.frameSeq &&& 0x0F),
    len ]

/-- `build_packet`: the packet that is sent. The padding is added to the length byte. -/
def buildPacket (aes : Aes κ) (t : State κ) (data : Bytes) : Bytes :=
  if data.length ≠ 0 && t.tx.encrypted then
    let (body, padLen) := doEncrypt aes t.pAesCtx data
    header t.tx (UInt8.ofNat data.length + UInt8.ofNat padLen) ++ body
  else header t.tx (UInt8.ofNat data.length) ++ data

def txBytesLeft (t : State κ) : Nat := (t.tx.len + 65536 - t.tx.bytesSent) % 65536

/-- `payload_max_len` of `send_fragment`. -/
def payloadMaxLen (t : State κ) : Nat :=
  let payloadMax := (t.maxPktSize + 65536 - headerSize) % 65536
  if t.tx.encrypted then (payloadMax / aesBlkSize * aesBlkSize + 65536 - 1) % 65536
  else payloadMax

/-- The packet the next turn of the loop of `send_fragment` builds. -/
def nextPacket (aes : Aes κ) (t : State κ) : Bytes :=
  buildPacket aes t ((t.tx.data.drop t.tx.bytesSent).take (min (txBytesLeft t) (payloadMaxLen t)))

/-- The state after a packet of `len` payload bytes went out. -/
def packetSent (len : Nat) (t : State κ) : State κ :=
  { t with tx := { t.tx with pktReq := (t.tx.pktReq + 1) % 65536
                             frameSeq := (t.tx.frameSeq + 1) % 256
                             bytesSent := (t.tx.bytesSent + len) % 65536 } }

def offered (t : State κ) : State κ := { t with tx := { t.tx with attempts := t.tx.attempts + 1 } }

/-- The loop of `send_fragment`, with the number of packets it sent. It is left when
a packet is refused, after one indication, or with nothing left. -/
def sendLoop (aes : Aes κ) (link : Link) : Nat → State κ → Option (State κ × List Output × Nat)
  | 0, _ => none
  | fuel + 1, t =>
    let len := min (txBytesLeft t) (payloadMaxLen t)
    let pkt := nextPacket aes t
    if !link t.tx.attempts then some (offered t, [], 0)
    else
      let sent := packetSent len (offered t)
      if t.tx.activeFunc = .indication || txBytesLeft sent = 0 then some (sent, [.packet pkt], 1)
      else
        match sendLoop aes link fuel sent with
        | none => none
        | some (t', out, pktSent) => some (t', .packet pkt :: out, (pktSent + 1) % 65536)

/-- `pktSent` more packets are confirmed. -/
def confirm (pktSent : Nat) (t : State κ) : State κ :=
  { t with tx := { t.tx with pktCfm := (t.tx.pktCfm + pktSent) % 65536 } }

mutual

def sendFragment (aes : Aes κ) (link : Link) : Nat → State κ → Option (State κ × List Output)
  | 0, _ => none
  | fuel + 1, t =>
    match sendLoop aes link fuel t with
    | none => none
    | some (t', out, pktSent) =>
      if t'.tx.activeFunc = .notification then
        match transportTxdone aes link fuel pktSent t' with
        | none => none
        | some (t'', out') => some (t'', out ++ out')
      else some (t', out)

/-- `qm_ble_transport_txdone`. -/
def transportTxdone (aes : Aes κ) (link : Link) : Nat → Nat → State κ →
    Option (State κ × List Output)
  | 0, _, _ => none
  | fuel + 1, pktSent, t =>
    let t := confirm pktSent t
    if txBytesLeft t ≠ 0 then sendFragment aes link fuel t
    else if t.tx.pktReq = t.tx.pktCfm ∧ t.tx.pktReq ≠ 0 then
      if isValidTxCommand t.tx.cmd then some (resetTx t, [.txDone]) else some (t, [])
    else if t.tx.pktReq < t.tx.pktCfm then some (resetTx t, [.err .pktCfmSent .einternal])
    else some (t, [])

end

def nextMsgId (txMsgId : UInt8) : UInt8 := if txMsgId + 1 == 16 then 1 else txMsgId + 1

/-- `qm_ble_tx_msg_id_get`. -/
def txMsgIdGet (t : State κ) : UInt8 := nextMsgId t.txMsgId

/-- Whether `qm_ble_transport_tx` encrypts the message. -/
def encrypts (t : State κ) (cmd : UInt8) : Bool := t.pKey.isSome && cmd != Cmd.auth

/-- `pkt_payload_len` of `qm_ble_transport_tx`, from which the frames are counted. -/
def pktPayloadLen (cfg : Config) (t : State κ) (cmd : UInt8) : Nat :=
  let payload := (t.maxPktSize + 65536 - headerSize) % 65536
  if encrypts t cmd && !cfg.longMtu then (payload / aesBlkSize * aesBlkSize + 65536 - 1) % 65536
  else payload

/-- The index of the last frame, as the source counts it: in eight bits, and one
less for an exact multiple. -/
def countFrames (length pktPayloadLen : Nat) : Nat :=
  let total := length / pktPayloadLen % 256
  if total * pktPayloadLen = length then (total + 255) % 256 else total

/-- Whether `qm_ble_transport_tx` picks the message identifier itself. -/
def picksMsgId (cmd msgId : UInt8) : Bool :=
  (cmd == Cmd.auth || cmd == Cmd.init || cmd == Cmd.report) && msgId == 0

/-- The message identifier the caller's `*msg_id` ends with. -/
def msgIdOf (t : State κ) (cmd msgId : UInt8) : UInt8 :=
  if picksMsgId cmd msgId then txMsgIdGet t else msgId

/-- The transport once `qm_ble_transport_tx` has accepted a message. -/
def startTx (cfg : Config) (txType : TxType) (msgId cmd : UInt8) (pData : Option Bytes) (length : Nat)
    (t : State κ) : State κ :=
  { t with
    tx := { t.tx with
      encrypted := encrypts t cmd
      data := pData.getD []
      len := length
      bytesSent := 0
      cmd := cmd
      frameSeq := 0
      pktReq := 0
      pktCfm := 0
      msgId := msgIdOf t cmd msgId
      -- An empty message leaves the count of the message before it.
      totalFrame := if pData.isSome && length ≠ 0 then countFrames length (pktPayloadLen cfg t cmd)
        else t.tx.totalFrame
      activeFunc := txType }
    txMsgId := if picksMsgId cmd msgId then txMsgIdGet t else t.txMsgId }

/-- What `qm_ble_transport_tx` leaves, returns and outputs. -/
structure TxResult (κ : Type) where
  state : State κ
  code : RetCode
  out : List Output

/-- `qm_ble_transport_tx`; `none` when the fuel does not reach. -/
def transportTx (cfg : Config) (aes : Aes κ) (link : Link) (fuel : Nat) (txType : TxType)
    (msgId cmd : UInt8) (pData : Option Bytes) (length : Nat) (t : State κ) : Option (TxResult κ) :=
  if pData.isNone && length ≠ 0 then some ⟨t, .enull, []⟩
  else if length > cfg.maxPayloadSize then some ⟨t, .edatasize, []⟩
  else if txBytesLeft t ≠ 0 || t.tx.pktReq ≠ t.tx.pktCfm then
    -- The encryption flag is already the new message's.
    some ⟨{ t with tx := { t.tx with encrypted := encrypts t cmd } }, .ebusy, []⟩
  else
    match sendFragment aes link fuel (startTx cfg txType msgId cmd pData length t) with
    | none => none
    | some (t', out) => some ⟨t', .success, out⟩

/-! ### Receiving -/

namespace Header

def isEnc (buf : Bytes) : Bool := (buf.getD 0 0 &&& 0x10) != 0
def msgId (buf : Bytes) : UInt8 := buf.getD 0 0 &&& 0xF
def cmdType (buf : Bytes) : UInt8 := buf.getD 1 0
def totalFrame (buf : Bytes) : UInt8 := (buf.getD 2 0 >>> 4) &&& 0x0F
def frameSeq (buf : Bytes) : UInt8 := buf.getD 2 0 &&& 0x0F
def frameLen (buf : Bytes) : Nat := (buf.getD 3 0).toNat

end Header

/-- `do_decrypt` on the `len` bytes at `data`: what is left of them. The buffer it
decrypts into starts as zeros. -/
def doDecrypt (aes : Aes κ) (ctx : Option κ) (data : Bytes) : Bytes :=
  let len := data.length
  if len > frameSizeMax then data
  else
    let blocks := len / aesBlkSize * aesBlkSize
    let plain := (aes.decrypt ctx (data.take blocks)).take blocks
    let decrypted := plain ++ List.replicate (frameSizeMax - plain.length) 0
    let padLen := (decrypted.getD (len - 1) 0).toNat
    if padLen < 1 || padLen > 16 then decrypted.take len else decrypted.take (len - padLen)

def Rx.framesLeft (r : Rx) : Bool := r.totalFrame != r.frameSeq

/-- The first or the next frame of a message: the receiver with its indices moved,
or the source of the error. -/
def Rx.frame (r : Rx) (buf : Bytes) : Except ErrorSrc Rx :=
  if !r.framesLeft then
    if Header.frameSeq buf != 0 then .error .firstFrame
    else .ok { r with msgId := Header.msgId buf, cmd := Header.cmdType buf,
                      totalFrame := Header.totalFrame buf, frameSeq := 0, bytesReceived := 0 }
  else if r.msgId != Header.msgId buf || r.cmd != Header.cmdType buf ||
      r.totalFrame != Header.totalFrame buf || (r.frameSeq + 1) &&& 0xF != Header.frameSeq buf then
    .error .otherFrames
  else .ok { r with frameSeq := Header.frameSeq buf }

/-- The checks of `qm_ble_transport_rx` behind the frame indices, in its order. The
subtractions are of signed integers. -/
def rxCheck (keyed : Bool) (buf : Bytes) (length : Nat) : Option (ErrorSrc × RetCode) :=
  if Header.isEnc buf && ((length : Int) - headerSize).tmod 16 ≠ 0 then
    some (.encrypted, .einvaliddata)
  else if Header.isEnc buf && !keyed then some (.encrypted, .eforbidden)
  else if (length ≠ headerSize + Header.frameLen buf && !Header.isEnc buf) ||
      (length < headerSize + Header.frameLen buf && Header.isEnc buf) then
    some (.otherFrames, .edatasize)
  else none

/-- The bytes `qm_ble_transport_rx` copies out of a packet when `room` bytes are left. -/
def decode (aes : Aes κ) (ctx : Option κ) (buf : Bytes) (room : Nat) : Bytes :=
  let data := (buf.drop headerSize).take (min room (Header.frameLen buf))
  if data.length > 0 && Header.isEnc buf then doDecrypt aes ctx data else data

def Rx.store (r : Rx) (data : Bytes) : Rx :=
  { r with buff := splice r.buff r.bytesReceived data, bytesReceived := r.bytesReceived + data.length }

/-- `trans_rx_dispatcher`. -/
def transRxDispatcher (cfg : Config) (r : Rx) : Option Message :=
  let message (handler : Handler) : Message :=
    ⟨handler, r.msgId, r.cmd, r.frameSeq + 1, r.buff.take r.bytesReceived⟩
  if !isValidRxCommand r.cmd then none
  else if r.cmd == Cmd.auth || r.cmd == Cmd.setRand then
    if cfg.enableAuth then some (message .auth) else none
  else some (message .event)

/-- What became of a packet. -/
inductive RxOutcome where
  | ignored
  | rejected (src : ErrorSrc) (code : RetCode)
  /-- Accepted, with the bytes it contributed; more frames to come. -/
  | stored (data : Bytes)
  /-- Accepted as the last frame; the dispatcher may refuse the command. -/
  | completed (data : Bytes) (message : Option Message)
  deriving DecidableEq, Repr

/-- `qm_ble_transport_rx` on the memory from `p_data` on and the length the stack
gives with it. -/
def transportRx (cfg : Config) (aes : Aes κ) (buf : Bytes) (length : Nat) (t : State κ) :
    State κ × RxOutcome :=
  if length = 0 then (t, .ignored)
  else if (length : Int) - headerSize + t.rx.bytesReceived > cfg.maxPayloadSize then
    (resetRx t, .rejected .rxBuffSize .edatasize)
  else
    match t.rx.frame buf with
    | .error src => (resetRx t, .rejected src .einvaliddata)
    | .ok rx =>
      match rxCheck t.pKey.isSome buf length with
      | some (src, code) => ({ t with rx := rx.reset }, .rejected src code)
      | none =>
        let data := decode aes t.pAesCtx buf (cfg.maxPayloadSize - rx.bytesReceived)
        let rx := rx.store data
        if !rx.framesLeft then
          ({ t with rx := rx.reset }, .completed data (transRxDispatcher cfg rx))
        else ({ t with rx := rx }, .stored data)

end Qumios.Ble.Transport
