import Qumios.Ble.Packet
import Qumios.Ble.Sending

/-! A message sent to a peer with the same key.

`roundTrip_iff` says exactly when the peer hands on one message equal to the one
sent. Several things can go wrong on the way: the frames are counted with another
payload length than they are cut with, both frame indices have four bits, a last
encrypted frame of whole blocks has no padding to tell it from its data, and the
receive buffer is checked against the padded length. -/
namespace Qumios.Ble.Transport
open Buffer List Nat

variable {κ : Type}

/-! ### The frames of one message at the receiver -/

/-- A started message whose frames fit the packets of the link. -/
structure Ready (cfg : Config) (s : State κ) : Prop extends Started s where
  cut_le : payloadMaxLen s ≤ 240
  cut_mod : s.tx.encrypted = true → payloadMaxLen s % 16 = 15
  fits : s.tx.len ≤ cfg.maxPayloadSize
  keyed : s.tx.encrypted = true → s.pKey.isSome = true

def announced (s : State κ) : Nat := s.tx.totalFrame % 16

theorem chunk_length_le (s : State κ) (i : Nat) : (chunk s i).length ≤ payloadMaxLen s :=
  length_take_le _ _

variable {cfg : Config} {i : Nat} {s p : State κ} {aes : Aes κ}

theorem chunk_length (h : Ready cfg s) (hi : i < lastFrame s) : (chunk s i).length = payloadMaxLen s := by
  have hmul : (i + 1) * payloadMaxLen s ≤ s.tx.len := mul_le_of_le_lastFrame hi
  rw [add_mul, one_mul] at hmul
  have hlen := h.len
  rw [chunk, length_take, length_drop]
  omega

theorem take_append_chunk (s : State κ) (i : Nat) :
    s.tx.data.take (i * payloadMaxLen s) ++ chunk s i = s.tx.data.take ((i + 1) * payloadMaxLen s) := by
  rw [add_mul, one_mul, take_add]
  rfl

theorem received_full (h : Ready cfg s) (hi : i < lastFrame s) : received s (chunk s i) = chunk s i := by
  refine (received_eq_iff _ _).mpr fun hbad => ?_
  have hmod := hbad.2.1
  rw [chunk_length h hi] at hmod
  have := h.cut_mod hbad.1
  omega

theorem bodyLen_full (h : Ready cfg s) (hi : i < lastFrame s) :
    i * payloadMaxLen s + bodyLen s (chunk s i) ≤ cfg.maxPayloadSize := by
  have hfits := h.fits
  have hmore : ¬ s.tx.len ≤ (i + 1) * payloadMaxLen s := by
    rw [len_le_mul_iff h.toStarted (le_of_lt hi)]
    omega
  rw [add_mul, one_mul] at hmore
  cases henc : s.tx.encrypted with
  | false =>
    rw [bodyLen, henc, if_neg Bool.false_ne_true, chunk_length h hi]
    omega
  | true =>
    have := h.cut_mod henc
    rw [bodyLen, henc, if_pos rfl, padLen, chunk_length h hi]
    omega

/-- The packet of a frame, as the receiver reads it. -/
theorem framePacket_fields (haes : aes.Inverts) (h : Ready cfg s) (i : Nat) :
    Header.isEnc (framePacket aes s i) = s.tx.encrypted ∧
    Header.msgId (framePacket aes s i) = s.tx.msgId &&& 0xF ∧
    Header.cmdType (framePacket aes s i) = s.tx.cmd ∧
    Header.totalFrame (framePacket aes s i) = UInt8.ofNat s.tx.totalFrame &&& 0xF ∧
    Header.frameSeq (framePacket aes s i) = UInt8.ofNat (i % 16) ∧
    Header.frameLen (framePacket aes s i) = bodyLen s (chunk s i) ∧
    (framePacket aes s i).length = headerSize + bodyLen s (chunk s i) ∧
    payloadOf aes s.pAesCtx (framePacket aes s i) = received s (chunk s i) := by
  have hlen : (chunk s i).length ≤ 240 := (chunk_length_le s i).trans h.cut_le
  have hbody := bodyLen_le s hlen
  obtain ⟨body, heq, hblen, -⟩ := buildPacket_eq haes (progress s i 0) hlen
  have hseq : UInt8.ofNat (i % 256) &&& 0xF = UInt8.ofNat (i % 16) := by
    rw [← UInt8.toNat_inj, ofNat_and_15_toNat, UInt8.toNat_ofNat']
    omega
  have hpayload : payloadOf aes s.pAesCtx (framePacket aes s i) = received s (chunk s i) :=
    payloadOf_buildPacket haes (t := progress s i 0) hlen
  have hpkt : framePacket aes s i =
      header (progress s i 0).tx (UInt8.ofNat (bodyLen s (chunk s i))) ++ body := heq
  refine ⟨?_, ?_, ?_, ?_, ?_, ?_, ?_, hpayload⟩
  · rw [hpkt, isEnc_header]
    rfl
  · rw [hpkt, msgId_header]
    rfl
  · rw [hpkt, cmdType_header]
    rfl
  · rw [hpkt, totalFrame_header]
    rfl
  · rw [hpkt, frameSeq_header]
    exact hseq
  · rw [hpkt, frameLen_header, UInt8.toNat_ofNat']
    omega
  · rw [hpkt, length_append, hblen]
    rfl

/-- The peer has the first `i` frames of the message and waits for the next. -/
structure Awaiting (cfg : Config) (s : State κ) (i : Nat) (p : State κ) : Prop where
  key : p.pKey.isSome = s.pKey.isSome
  ctx : p.pAesCtx = s.pAesCtx
  capacity : p.rx.buff.length = cfg.maxPayloadSize
  bytes : p.rx.bytesReceived = i * payloadMaxLen s
  content : p.rx.buff.take (i * payloadMaxLen s) = s.tx.data.take (i * payloadMaxLen s)
  first : i = 0 → p.rx.framesLeft = false
  later : i ≠ 0 → p.rx.framesLeft = true ∧ p.rx.msgId = s.tx.msgId &&& 0xF ∧ p.rx.cmd = s.tx.cmd ∧
    p.rx.totalFrame = UInt8.ofNat s.tx.totalFrame &&& 0xF ∧ p.rx.frameSeq = UInt8.ofNat (i - 1)

/-- The receiver when it has taken the header of frame `i`. -/
def expected (s : State κ) (i : Nat) (r : Rx) : Rx :=
  { r with msgId := s.tx.msgId &&& 0xF, cmd := s.tx.cmd, totalFrame := UInt8.ofNat s.tx.totalFrame &&& 0xF,
           frameSeq := UInt8.ofNat i, bytesReceived := i * payloadMaxLen s }

section
variable (haes : aes.Inverts) (h : Ready cfg s) (hp : Awaiting cfg s i p)
include haes h hp

theorem frame_expected (hi : i < 16) : p.rx.frame (framePacket aes s i) = .ok (expected s i p.rx) := by
  obtain ⟨-, hmsg, hcmd, htotal, hseq, -⟩ := framePacket_fields haes h i
  rw [mod_eq_of_lt hi] at hseq
  unfold Rx.frame
  by_cases hzero : i = 0
  · subst hzero
    rw [if_pos (by simp [hp.first rfl]), if_neg (by simp [hseq]), hmsg, hcmd, htotal]
    simp [expected]
  · obtain ⟨hleft, hm, hc, ht, hs⟩ := hp.later hzero
    have hnext : (p.rx.frameSeq + 1) &&& 0xF = UInt8.ofNat i := by
      rw [hs, ← UInt8.toNat_inj, and_15_toNat, UInt8.toNat_add, UInt8.toNat_ofNat', UInt8.toNat_ofNat']
      show ((i - 1) % 2 ^ 8 + 1) % 2 ^ 8 % 16 = i % 2 ^ 8
      omega
    rw [if_neg (by simp [hleft]), if_neg (by simp [hm, hc, ht, hmsg, hcmd, htotal, hseq, hnext]), hseq]
    simp only [expected, ← hm, ← hc, ← ht, ← hp.bytes]

theorem rxCheck_framePacket : rxCheck p.pKey.isSome (framePacket aes s i) (framePacket aes s i).length = none := by
  obtain ⟨henc, -, -, -, -, hflen, hlen, -⟩ := framePacket_fields haes h i
  unfold rxCheck
  rw [henc, hflen, hlen, hp.key]
  cases hs : s.tx.encrypted with
  | false => simp
  | true =>
    have hmod : (bodyLen s (chunk s i)) % 16 = 0 := by
      simp only [bodyLen, hs, if_true, padLen]
      omega
    have hint : ((bodyLen s (chunk s i) : Nat) : Int).tmod 16 = 0 := by
      rw [← Int.natCast_zero, ← hmod]
      rfl
    simp [hint, h.keyed hs]

theorem transportRx_noRoom (hroom : ¬ i * payloadMaxLen s + bodyLen s (chunk s i) ≤ cfg.maxPayloadSize) :
    transportRx cfg aes (framePacket aes s i) (framePacket aes s i).length p =
      (resetRx p, .rejected .rxBuffSize .edatasize) := by
  obtain ⟨-, -, -, -, -, -, hlen, -⟩ := framePacket_fields haes h i
  unfold transportRx
  rw [hlen, hp.bytes, if_neg (by simp [headerSize]), if_pos (by omega)]

/-- The next frame is taken: it completes the message if it is the announced one. -/
theorem transportRx_next (hi : i < 16) (hroom : i * payloadMaxLen s + bodyLen s (chunk s i) ≤ cfg.maxPayloadSize) :
    transportRx cfg aes (framePacket aes s i) (framePacket aes s i).length p =
      if ((expected s i p.rx).store (received s (chunk s i))).framesLeft then
        ({ p with rx := (expected s i p.rx).store (received s (chunk s i)) }, .stored (received s (chunk s i)))
      else
        ({ p with rx := ((expected s i p.rx).store (received s (chunk s i))).reset },
          .completed (received s (chunk s i))
            (transRxDispatcher cfg ((expected s i p.rx).store (received s (chunk s i))))) := by
  obtain ⟨-, -, -, -, -, hflen, hlen, hpayload⟩ := framePacket_fields haes h i
  have hdec : decode aes p.pAesCtx (framePacket aes s i) (cfg.maxPayloadSize - (expected s i p.rx).bytesReceived) =
      received s (chunk s i) := by
    rw [hp.ctx, decode_of_room, hpayload]
    show _ ≤ cfg.maxPayloadSize - i * payloadMaxLen s
    omega
  unfold transportRx
  rw [rxCheck_framePacket haes h hp, frame_expected haes h hp hi, if_neg (by rw [hlen]; simp [headerSize]),
    if_neg (by rw [hlen, hp.bytes]; omega)]
  dsimp only
  rw [hdec]
  cases ((expected s i p.rx).store (received s (chunk s i))).framesLeft <;> rfl
end

theorem expected_framesLeft (s : State κ) (r : Rx) (hi : i < 16) (data : Bytes) :
    ((expected s i r).store data).framesLeft = true ↔ announced s ≠ i := by
  have hne : ((expected s i r).store data).framesLeft = true ↔
      (UInt8.ofNat s.tx.totalFrame &&& 0xF) ≠ UInt8.ofNat i := bne_iff_ne
  rw [hne, ne_eq, ← UInt8.toNat_inj, ofNat_and_15_toNat, UInt8.toNat_ofNat', mod_eq_of_lt (by omega : i < 2 ^ 8)]
  rfl

/-- What the receiver holds once frame `i` is in. -/
theorem store_content (hp : Awaiting cfg s i p) {data : Bytes}
    (hroom : i * payloadMaxLen s + data.length ≤ cfg.maxPayloadSize) :
    ((expected s i p.rx).store data).buff.length = cfg.maxPayloadSize ∧
    ((expected s i p.rx).store data).buff.take ((expected s i p.rx).store data).bytesReceived =
      s.tx.data.take (i * payloadMaxLen s) ++ data := by
  have hcap := hp.capacity
  constructor
  · show (splice p.rx.buff (i * payloadMaxLen s) data).length = _
    rw [length_splice _ _ _ (by omega), hcap]
  · show (splice p.rx.buff (i * payloadMaxLen s) data).take (i * payloadMaxLen s + data.length) = _
    rw [take_splice _ _ _ (by omega), hp.content]

/-- A full frame before the announced one moves the receiver on. -/
theorem awaiting_step (haes : aes.Inverts) (h : Ready cfg s) (hp : Awaiting cfg s i p) (hlast : i < lastFrame s)
    (htotal : i < announced s) :
    ∃ p', transportRx cfg aes (framePacket aes s i) (framePacket aes s i).length p =
        (p', .stored (chunk s i)) ∧ Awaiting cfg s (i + 1) p' := by
  have hi : i < 16 := htotal.trans (mod_lt _ (by decide))
  have hroom := bodyLen_full h hlast
  have hlen := chunk_length h hlast
  have hleft := (expected_framesLeft s p.rx hi (chunk s i)).mpr (ne_of_gt htotal)
  have hnext := transportRx_next haes h hp hi hroom
  rw [received_full h hlast, if_pos hleft] at hnext
  refine ⟨_, hnext, ?_⟩
  have hle : i * payloadMaxLen s + (chunk s i).length ≤ cfg.maxPayloadSize := by
    have : (chunk s i).length ≤ bodyLen s (chunk s i) := by
      unfold bodyLen
      split <;> omega
    omega
  obtain ⟨hcap, htake⟩ := store_content hp hle
  have hbytes : ((expected s i p.rx).store (chunk s i)).bytesReceived = (i + 1) * payloadMaxLen s := by
    show i * payloadMaxLen s + (chunk s i).length = _
    rw [hlen, add_mul, one_mul]
  exact
    { key := hp.key
      ctx := hp.ctx
      capacity := hcap
      bytes := hbytes
      content := by
        rw [hbytes, take_append_chunk] at htake
        exact htake
      first := fun h0 => absurd h0 (succ_ne_zero i)
      later := fun _ => ⟨hleft, rfl, rfl, rfl, rfl⟩ }

/-! ### A stream of packets -/

def RxOutcome.message : RxOutcome → Option Message
  | .completed _ m => m
  | _ => none

/-- The peer is fed packets, each with the length it has. -/
def receive (cfg : Config) (aes : Aes κ) : State κ → List Bytes → State κ × List Message
  | p, [] => (p, [])
  | p, pkt :: rest =>
    let (p', outcome) := transportRx cfg aes pkt pkt.length p
    let (p'', messages) := receive cfg aes p' rest
    (p'', outcome.message.toList ++ messages)

theorem receive_cons {p' : State κ} {pkt : Bytes} {outcome : RxOutcome}
    (h : transportRx cfg aes pkt pkt.length p = (p', outcome)) (rest : List Bytes) :
    (receive cfg aes p (pkt :: rest)).2 = outcome.message.toList ++ (receive cfg aes p' rest).2 := by
  rw [receive, h]

/-- Up to the last frame and up to the announced one, frames are stored and nothing
is handed on. -/
theorem receive_stored (haes : aes.Inverts) (h : Ready cfg s) {n : Nat} (rest : List Bytes) (hp : Awaiting cfg s i p)
    (hlast : i + n ≤ lastFrame s) (htotal : i + n ≤ announced s) :
    ∃ p', Awaiting cfg s (i + n) p' ∧
      (receive cfg aes p ((List.range' i n).map (framePacket aes s) ++ rest)).2 = (receive cfg aes p' rest).2 := by
  induction n generalizing i p with
  | zero => exact ⟨p, hp, rfl⟩
  | succ n ih =>
    obtain ⟨p', hstep, hp'⟩ := awaiting_step haes h hp (by omega) (by omega)
    obtain ⟨p'', hp'', hrest⟩ := ih hp' (by omega) (by omega)
    refine ⟨p'', by rwa [add_right_comm, add_assoc] at hp'', ?_⟩
    rw [range'_succ, map_cons, cons_append, receive_cons hstep, hrest]
    rfl

/-! ### The announced frame count -/

/-- The payload bytes `send_fragment` puts into a frame. -/
def fragmentLen (t : State κ) (cmd : UInt8) : Nat :=
  if encrypts t cmd then t.maxPktSize - 5 else t.maxPktSize - 4

/-- The payload bytes of a frame as `qm_ble_transport_tx` counts them: a long MTU
build forgets the byte that encryption keeps free. -/
def countedLen (cfg : Config) (t : State κ) (cmd : UInt8) : Nat :=
  if encrypts t cmd && !cfg.longMtu then t.maxPktSize - 5 else t.maxPktSize - 4

def lastPiece (t : State κ) (cmd : UInt8) (data : Bytes) : Bytes :=
  data.drop ((data.length - 1) / fragmentLen t cmd * fragmentLen t cmd)

section started

variable {cfg : Config} {txType : TxType} {msgId cmd : UInt8} {pData : Option Bytes} {t : State κ}

theorem payloadMaxLen_startTx (cfg : Config) (txType : TxType) (msgId cmd : UInt8) (pData : Option Bytes)
    (ht : Sane t) (length : Nat) :
    payloadMaxLen (startTx cfg txType msgId cmd pData length t) = fragmentLen t cmd ∧
    pktPayloadLen cfg t cmd = countedLen cfg t cmd ∧
    15 ≤ fragmentLen t cmd ∧ fragmentLen t cmd ≤ countedLen cfg t cmd ∧ countedLen cfg t cmd ≤ 240 ∧
    (encrypts t cmd = true → fragmentLen t cmd % 16 = 15) := by
  obtain ⟨k, hlo, hhi, hk⟩ := ht.pktSize
  have hmax : payloadMaxLen (startTx cfg txType msgId cmd pData length t) =
      if encrypts t cmd then ((t.maxPktSize + 65536 - headerSize) % 65536 / aesBlkSize * aesBlkSize + 65536 - 1) % 65536
      else (t.maxPktSize + 65536 - headerSize) % 65536 := rfl
  rw [hmax]
  simp only [fragmentLen, countedLen, pktPayloadLen, headerSize, aesBlkSize, hk]
  cases encrypts t cmd <;> cases cfg.longMtu <;>
    simp only [Bool.false_eq_true, if_false, if_true, Bool.not_true, Bool.not_false, Bool.and_true, Bool.and_false,
      false_implies, true_implies, and_true] <;>
    omega

theorem ready_startTx (ht : Sane t) (hcmd : isValidTxCommand cmd = true)
    (hlen : (pData.getD []).length ≤ cfg.maxPayloadSize) :
    Ready cfg (startTx cfg txType msgId cmd pData (pData.getD []).length t) := by
  obtain ⟨hcut, -, hlo, hle, hhi, hmod⟩ :=
    payloadMaxLen_startTx cfg txType msgId cmd pData ht (pData.getD []).length
  exact
    { len := rfl
      bound := hlen.trans cfg.maxPayloadSize_le
      cut_pos := by omega
      command := hcmd
      bytesSent := rfl
      frameSeq := rfl
      pktReq := rfl
      pktCfm := rfl
      cut_le := by omega
      cut_mod := fun henc => by rw [hcut]; exact hmod henc
      fits := hlen
      keyed := fun henc => (Bool.and_eq_true_iff.mp henc).1 }

end started

/-- The frame count is the index of the last frame as long as it fits eight bits. -/
theorem countFrames_eq {length len : Nat} (hlen : 0 < length) (hsmall : length / len < 256) :
    countFrames length len = (length - 1) / len := by
  obtain ⟨n, rfl⟩ : ∃ n, length = n + 1 := ⟨length - 1, by omega⟩
  rw [countFrames, Nat.mod_eq_of_lt hsmall, Nat.add_sub_cancel]
  have hsucc : (n + 1) / len = n / len + if len ∣ n + 1 then 1 else 0 := Nat.succ_div
  by_cases hdvd : len ∣ n + 1
  · rw [if_pos hdvd] at hsucc
    rw [if_pos (Nat.div_mul_cancel hdvd), hsucc]
    rw [hsucc] at hsmall
    generalize n / len = q at hsmall ⊢
    omega
  · rw [if_neg hdvd] at hsucc
    rw [if_neg (fun heq => hdvd ⟨_, by rw [Nat.mul_comm]; exact heq.symm⟩), hsucc, Nat.add_zero]

/-- The announced count is right when both lengths give the same number of frames,
and at most sixteen. -/
theorem countFrames_mod_iff {length cut counted : Nat} (hlen : 0 < length) (hcut : 0 < cut) (hle : cut ≤ counted) :
    countFrames length counted % 16 = (length - 1) / cut ↔
      (length - 1) / counted = (length - 1) / cut ∧ (length - 1) / cut < 16 := by
  have hmono : (length - 1) / counted ≤ (length - 1) / cut := div_le_div_left hle hcut
  by_cases hsmall : (length - 1) / cut < 16
  · have hcount : length / counted < 256 := by
      have : length - 1 < 16 * counted := by
        have := (div_lt_iff_lt_mul (by omega : 0 < counted)).mp (lt_of_le_of_lt hmono hsmall)
        omega
      exact (div_lt_iff_lt_mul (by omega)).mpr (by omega)
    rw [countFrames_eq hlen hcount, mod_eq_of_lt (by omega)]
    exact ⟨fun heq => ⟨heq, hsmall⟩, fun h => h.1⟩
  · exact ⟨fun heq => absurd (heq ▸ mod_lt _ (by decide)) hsmall, fun h => absurd h.2 hsmall⟩

/-! ### The message at the peer -/

/-- The dispatcher hands a command on, unless it is for the authentication this build leaves out. -/
theorem transRxDispatcher_eq {r : Rx} (htx : isValidTxCommand r.cmd = true) (hrx : isValidRxCommand r.cmd = true)
    (hauth : r.cmd = Cmd.auth → cfg.enableAuth = true) :
    ∃ handler, transRxDispatcher cfg r =
      some ⟨handler, r.msgId, r.cmd, r.frameSeq + 1, r.buff.take r.bytesReceived⟩ := by
  have hrand : r.cmd ≠ Cmd.setRand := by
    intro heq
    rw [heq] at htx
    exact absurd htx (by decide)
  unfold transRxDispatcher
  rw [if_neg (by simp [hrx])]
  by_cases hcmd : r.cmd = Cmd.auth
  · exact ⟨.auth, by rw [if_pos (by simp [hcmd]), if_pos (hauth hcmd)]⟩
  · exact ⟨.event, by rw [if_neg (by simp [hcmd, hrand])]⟩

/-- A build without authentication hands no authentication message on. -/
theorem receive_refused (hcfg : cfg.enableAuth = false) (pkts : List Bytes)
    (hcmd : ∀ pkt ∈ pkts, Header.cmdType pkt = Cmd.auth) (p : State κ)
    (hp : p.rx.framesLeft = true → p.rx.cmd = Cmd.auth) : (receive cfg aes p pkts).2 = [] := by
  induction pkts generalizing p with
  | nil => rfl
  | cons pkt rest ih =>
    have hpkt := hcmd pkt mem_cons_self
    have hrest := fun pkt' hmem => hcmd pkt' (mem_cons_of_mem pkt hmem)
    rcases transportRx_cases cfg aes pkt pkt.length p with heq | ⟨rx, src, code, heq, -⟩ |
      ⟨rx, hframe, -, -, data, -, heq⟩
    · rw [receive_cons heq]
      exact ih hrest p hp
    · rw [receive_cons heq]
      exact ih hrest _ (fun h => absurd h (by simp [Rx.framesLeft, Rx.reset]))
    · have hrx : rx.cmd = Cmd.auth := by
        unfold Rx.frame at hframe
        split at hframe
        · split at hframe <;> cases hframe
          exact hpkt
        · next hleft =>
          split at hframe <;> cases hframe
          exact hp (by simpa using hleft)
      have hnone : transRxDispatcher cfg (rx.store data) = none := by
        have hst : (rx.store data).cmd = Cmd.auth := hrx
        simp [transRxDispatcher, hst, hcfg]
      rw [hnone] at heq
      by_cases hleft : (rx.store data).framesLeft = true
      · rw [if_pos hleft] at heq
        rw [receive_cons heq]
        exact ih hrest _ (fun _ => hrx)
      · rw [if_neg hleft] at heq
        rw [receive_cons heq]
        exact ih hrest _ (fun h => absurd h (by simp [Rx.framesLeft, Rx.reset]))

def packets (out : List Output) : List Bytes :=
  out.filterMap fun
    | .packet bytes => some bytes
    | _ => none

def RoundTrips (messages : List Message) (msgId cmd : UInt8) (data : Bytes) : Prop :=
  ∃ m, messages = [m] ∧ m.msgId = msgId ∧ m.cmd = cmd ∧ m.payload = data

theorem msgId_and_15 (x : UInt8) : x &&& 0xF = x ↔ x.toNat < 16 := by
  rw [← UInt8.toNat_inj, and_15_toNat]
  omega

section frames

variable {cfg : Config} {aes : Aes κ} {s p : State κ}

def messagesOf (cfg : Config) (aes : Aes κ) (s p : State κ) : List Message :=
  (receive cfg aes p ((List.range (lastFrame s + 1)).map (framePacket aes s))).2

section
variable (haes : aes.Inverts) (h : Ready cfg s) (hp : Awaiting cfg s 0 p)
include haes h hp

/-- The peer stores the frames in front of the last and of the announced one. -/
theorem messagesOf_stored {n : Nat} (hlast : n ≤ lastFrame s) (htotal : n ≤ announced s) :
    ∃ p', Awaiting cfg s n p' ∧ messagesOf cfg aes s p =
      (receive cfg aes p' (framePacket aes s n ::
        (List.range' (n + 1) (lastFrame s - n)).map (framePacket aes s))).2 := by
  have hrange : (List.range (lastFrame s + 1)).map (framePacket aes s) =
      (List.range' 0 n).map (framePacket aes s) ++ (framePacket aes s n ::
        (List.range' (n + 1) (lastFrame s - n)).map (framePacket aes s)) := by
    have hsplit : List.range' 0 n ++ List.range' (0 + n) (lastFrame s - n + 1) =
        List.range' 0 (n + (lastFrame s - n + 1)) := range'_append_1
    rw [← map_cons, ← range'_succ, ← map_append, range_eq_range']
    rw [zero_add] at hsplit
    rw [hsplit, show n + (lastFrame s - n + 1) = lastFrame s + 1 by omega]
  obtain ⟨p', hp', hrest⟩ := receive_stored haes h (framePacket aes s n ::
    (List.range' (n + 1) (lastFrame s - n)).map (framePacket aes s)) hp
    (by omega : 0 + n ≤ lastFrame s) (by omega)
  rw [zero_add] at hp'
  exact ⟨p', hp', by rw [messagesOf, hrange, hrest]⟩

theorem messagesOf_auth (hcmd : s.tx.cmd = Cmd.auth) (hcfg : cfg.enableAuth = false) : messagesOf cfg aes s p = [] := by
  refine receive_refused hcfg _ (fun pkt hmem => ?_) p (by simp [hp.first rfl])
  obtain ⟨i, -, rfl⟩ := mem_map.mp hmem
  rw [(framePacket_fields haes h i).2.2.1]
  exact hcmd

/-- With too few frames announced the first message ends early. -/
theorem messagesOf_short (hrx : isValidRxCommand s.tx.cmd = true)
    (hauth : s.tx.cmd = Cmd.auth → cfg.enableAuth = true) (hlt : announced s < lastFrame s) :
    ∃ m rest, messagesOf cfg aes s p = m :: rest ∧ m.payload ≠ s.tx.data := by
  have hann : announced s < 16 := Nat.mod_lt _ (by decide)
  obtain ⟨p', hp', hrest⟩ := messagesOf_stored haes h hp (Nat.le_of_lt hlt) (Nat.le_refl _)
  have hroom := bodyLen_full h hlt
  have hlen : announced s * payloadMaxLen s + (chunk s (announced s)).length ≤ cfg.maxPayloadSize := by
    unfold bodyLen at hroom
    split at hroom <;> omega
  have hnext := transportRx_next haes h hp' hann hroom
  rw [received_full h hlt, if_neg (by rw [expected_framesLeft s p'.rx hann]; simp)] at hnext
  obtain ⟨handler, hdisp⟩ := transRxDispatcher_eq
    (r := (expected s (announced s) p'.rx).store (chunk s (announced s))) h.command hrx hauth
  rw [hdisp] at hnext
  refine ⟨_, _, by rw [hrest, receive_cons hnext]; rfl, fun hpay => ?_⟩
  have hcontent := (store_content hp' hlen).2.symm.trans hpay
  rw [take_append_chunk] at hcontent
  have hshort := congrArg List.length hcontent
  have hmore := (len_le_mul_iff h.toStarted (Nat.le_of_lt hlt)).mp.mt (Nat.ne_of_lt hlt)
  rw [length_take, ← h.len] at hshort
  omega

/-- With all frames announced, or more, it is the last frame that decides. -/
theorem messagesOf_last (hrx : isValidRxCommand s.tx.cmd = true)
    (hauth : s.tx.cmd = Cmd.auth → cfg.enableAuth = true) (hge : lastFrame s ≤ announced s) :
    (messagesOf cfg aes s p = [] ∧ ¬ (announced s = lastFrame s ∧
      lastFrame s * payloadMaxLen s + bodyLen s (chunk s (lastFrame s)) ≤ cfg.maxPayloadSize)) ∨
    ((announced s = lastFrame s ∧
      lastFrame s * payloadMaxLen s + bodyLen s (chunk s (lastFrame s)) ≤ cfg.maxPayloadSize) ∧
      ∃ handler frames, messagesOf cfg aes s p = [⟨handler, s.tx.msgId &&& 0xF, s.tx.cmd, frames,
        s.tx.data.take (lastFrame s * payloadMaxLen s) ++ received s (chunk s (lastFrame s))⟩]) := by
  have hi : lastFrame s < 16 := lt_of_le_of_lt hge (Nat.mod_lt _ (by decide))
  obtain ⟨p', hp', hrest⟩ := messagesOf_stored haes h hp (Nat.le_refl _) hge
  rw [Nat.sub_self, range'_zero, map_nil] at hrest
  by_cases hroom : lastFrame s * payloadMaxLen s + bodyLen s (chunk s (lastFrame s)) ≤ cfg.maxPayloadSize
  · have hnext := transportRx_next haes h hp' hi hroom
    by_cases heq : announced s = lastFrame s
    · rw [if_neg (by rw [expected_framesLeft s p'.rx hi]; simp [heq])] at hnext
      obtain ⟨handler, hdisp⟩ := transRxDispatcher_eq
        (r := (expected s (lastFrame s) p'.rx).store (received s (chunk s (lastFrame s)))) h.command hrx hauth
      have hlen : lastFrame s * payloadMaxLen s + (received s (chunk s (lastFrame s))).length ≤
          cfg.maxPayloadSize := by
        have := received_length_le s (chunk s (lastFrame s))
        unfold bodyLen at hroom
        split at hroom <;> omega
      rw [hdisp, (store_content hp' hlen).2] at hnext
      exact .inr ⟨⟨heq, hroom⟩, handler, _, by rw [hrest, receive_cons hnext]; rfl⟩
    · rw [if_pos ((expected_framesLeft s p'.rx hi _).mpr heq)] at hnext
      exact .inl ⟨by rw [hrest, receive_cons hnext]; rfl, fun hfits => heq hfits.1⟩
  · refine .inl ⟨?_, fun hfits => hroom hfits.2⟩
    rw [hrest, receive_cons (transportRx_noRoom haes h hp' hroom)]
    rfl
end

theorem take_append_last (h : Ready cfg s) :
    s.tx.data.take (lastFrame s * payloadMaxLen s) ++ chunk s (lastFrame s) = s.tx.data := by
  rw [take_append_chunk, take_of_length_le]
  rw [← h.len]
  exact (len_le_mul_iff h.toStarted (le_refl _)).mpr rfl

/-- The frames of a started message at an idle peer: the message arrives exactly if
all of them were announced, there is room for the last one with its padding, and its
data is not taken for padding. -/
theorem roundTrips_messagesOf_iff (haes : aes.Inverts) (h : Ready cfg s) (hp : Awaiting cfg s 0 p)
    (hrx : isValidRxCommand s.tx.cmd = true) :
    RoundTrips (messagesOf cfg aes s p) s.tx.msgId s.tx.cmd s.tx.data ↔
    s.tx.msgId.toNat < 16 ∧ (s.tx.cmd = Cmd.auth → cfg.enableAuth = true) ∧ announced s = lastFrame s ∧
      lastFrame s * payloadMaxLen s + bodyLen s (chunk s (lastFrame s)) ≤ cfg.maxPayloadSize ∧
      ¬ (s.tx.encrypted = true ∧ Misread (chunk s (lastFrame s))) := by
  by_cases hauth : s.tx.cmd = Cmd.auth → cfg.enableAuth = true
  · rcases lt_or_ge (announced s) (lastFrame s) with hlt | hge
    · obtain ⟨m, rest, hm, hpay⟩ := messagesOf_short haes h hp hrx hauth hlt
      refine ⟨?_, fun hfits => absurd hfits.2.2.1 (Nat.ne_of_lt hlt)⟩
      rintro ⟨m', hm', -, -, hpay'⟩
      have heq := (List.cons.inj (hm.symm.trans hm')).1
      exact absurd (heq ▸ hpay') hpay
    · rcases messagesOf_last haes h hp hrx hauth hge with ⟨hnone, hbad⟩ | ⟨hfits, handler, frames, hone⟩
      · rw [hnone]
        refine ⟨?_, fun hfits => absurd ⟨hfits.2.2.1, hfits.2.2.2.1⟩ hbad⟩
        rintro ⟨m, hm, -⟩
        cases hm
      · have hdata := take_append_last h
        rw [hone, ← received_eq_iff]
        constructor
        · rintro ⟨m, hm, hid, -, hpay⟩
          cases hm
          refine ⟨(msgId_and_15 _).mp hid, hauth, hfits.1, hfits.2, ?_⟩
          exact append_cancel_left (hpay.trans hdata.symm)
        · rintro ⟨hid, -, -, -, hpad⟩
          exact ⟨_, rfl, (msgId_and_15 _).mpr hid, rfl, by rw [hpad]; exact hdata⟩
  · rw [Classical.not_imp, Bool.not_eq_true] at hauth
    rw [messagesOf_auth haes h hp hauth.1 hauth.2]
    constructor
    · rintro ⟨m, hm, -⟩
      cases hm
    · intro hfits
      exact absurd (hfits.2.1 hauth.1) (by simp [hauth.2])

end frames

/-! ### The round trip -/

/-- An idle peer with its whole buffer and the same key. -/
structure Peer (cfg : Config) (t p : State κ) : Prop where
  idle : p.rx.Idle
  capacity : p.rx.buff.length = cfg.maxPayloadSize
  key : p.pKey = t.pKey
  ctx : p.pAesCtx = t.pAesCtx

/-- What a message must satisfy to arrive, from the state it is sent in. -/
structure Fits (cfg : Config) (t : State κ) (msgId cmd : UInt8) (data : Bytes) : Prop where
  /-- The header has four bits for the identifier. -/
  msgId_lt : msgId.toNat < 16
  /-- An authentication message needs a build with authentication. -/
  auth : cmd = Cmd.auth → cfg.enableAuth = true
  /-- An empty message goes out with the frame count of the message before it. -/
  empty : data = [] → t.tx.totalFrame % 16 = 0
  /-- Counting the frames and cutting them agree. -/
  counted : data ≠ [] →
    (data.length - 1) / countedLen cfg t cmd = (data.length - 1) / fragmentLen t cmd
  /-- At most sixteen frames. -/
  frames : (data.length - 1) / fragmentLen t cmd < 16
  /-- The receive buffer holds the message with the padding of its last frame. -/
  room : encrypts t cmd = true → data.length + padLen (lastPiece t cmd data) ≤ cfg.maxPayloadSize
  /-- A last frame of whole blocks does not end like padding. -/
  unpadded : encrypts t cmd = true → ¬ Misread (lastPiece t cmd data)

theorem transportTx_success {link : Link} {fuel : Nat} {txType : TxType} {msgId cmd : UInt8} {pData : Option Bytes}
    {length : Nat} {t : State κ} {r : TxResult κ}
    (h : transportTx cfg aes link fuel txType msgId cmd pData length t = some r) (hcode : r.code = .success) :
    ¬ (pData.isNone && length ≠ 0) = true ∧ ¬ length > cfg.maxPayloadSize ∧
    ¬ (txBytesLeft t ≠ 0 || t.tx.pktReq ≠ t.tx.pktCfm) = true := by
  unfold transportTx at h
  split at h
  · cases h
    cases hcode
  · next hdata =>
    split at h
    · cases h
      cases hcode
    · next hlen =>
      split at h
      · cases h
        cases hcode
      · next hfree => exact ⟨hdata, hlen, hfree⟩

theorem msgIdOf_lt_iff {t : State κ} (ht : Sane t) (cmd msgId : UInt8) :
    (msgIdOf t cmd msgId).toNat < 16 ↔ msgId.toNat < 16 := by
  unfold msgIdOf
  split
  · next hpick =>
    have hzero : msgId = 0 := by simpa using (Bool.and_eq_true_iff.mp hpick).2
    have := txMsgIdGet_le ht.txMsgId
    simp only [hzero, UInt8.toNat_zero]
    omega
  · exact Iff.rfl

section start

variable {cfg : Config} {txType : TxType} {msgId cmd : UInt8} {pData : Option Bytes} {t s : State κ}

section
variable (hs : s = startTx cfg txType msgId cmd pData (pData.getD []).length t)
include hs

theorem chunk_startTx (h : Ready cfg s) (hcut : payloadMaxLen s = fragmentLen t cmd) :
    chunk s (lastFrame s) = lastPiece t cmd (pData.getD []) := by
  have hlast := (len_le_mul_iff h.toStarted (le_refl _)).mpr rfl
  rw [add_mul, one_mul, h.len] at hlast
  rw [chunk, take_of_length_le (by rw [length_drop]; omega), lastFrame, hcut]
  subst hs
  rfl

/-- Room for the last frame, in terms of the message. -/
theorem room_startTx_iff (h : Ready cfg s) (hcut : payloadMaxLen s = fragmentLen t cmd) :
    lastFrame s * payloadMaxLen s + bodyLen s (chunk s (lastFrame s)) ≤ cfg.maxPayloadSize ↔
      (encrypts t cmd = true →
        (pData.getD []).length + padLen (lastPiece t cmd (pData.getD [])) ≤ cfg.maxPayloadSize) := by
  have hdata : s.tx.data = pData.getD [] := by rw [hs]; rfl
  have henc : s.tx.encrypted = encrypts t cmd := by rw [hs]; rfl
  have hfits : (pData.getD []).length ≤ cfg.maxPayloadSize := by
    have := h.fits
    rwa [h.len, hdata] at this
  have hsum : lastFrame s * payloadMaxLen s + (chunk s (lastFrame s)).length = (pData.getD []).length := by
    have hall := congrArg List.length (take_append_last h)
    have hle := lastFrame_mul_le s
    rw [length_append, length_take, ← h.len, min_eq_left hle, h.len, hdata] at hall
    exact hall
  rw [bodyLen, henc, ← chunk_startTx hs h hcut]
  cases encrypts t cmd with
  | false => simp [hsum, hfits]
  | true => simp [← add_assoc, hsum]

theorem announced_startTx_iff (hcut : payloadMaxLen s = fragmentLen t cmd)
    (hcount : pktPayloadLen cfg t cmd = countedLen cfg t cmd) (hpos : 0 < fragmentLen t cmd)
    (hle : fragmentLen t cmd ≤ countedLen cfg t cmd) :
    announced s = lastFrame s ↔
      (pData.getD [] = [] → t.tx.totalFrame % 16 = 0) ∧
      (pData.getD [] ≠ [] → ((pData.getD []).length - 1) / countedLen cfg t cmd =
        ((pData.getD []).length - 1) / fragmentLen t cmd) ∧
      ((pData.getD []).length - 1) / fragmentLen t cmd < 16 := by
  have hlast : lastFrame s = ((pData.getD []).length - 1) / fragmentLen t cmd := by
    rw [lastFrame, hcut, hs]
    rfl
  have htotal : announced s = (if pData.isSome && (pData.getD []).length ≠ 0 then
      countFrames (pData.getD []).length (pktPayloadLen cfg t cmd) else t.tx.totalFrame) % 16 := by
    rw [hs]
    rfl
  rw [hlast, htotal, hcount]
  by_cases hnil : pData.getD [] = []
  · simp [hnil]
  · have hsome : pData.isSome = true := by
      cases pData with
      | none => exact absurd rfl hnil
      | some _ => rfl
    have hlen : 0 < (pData.getD []).length := length_pos_iff.mpr hnil
    rw [if_pos (by simp [hsome, hnil]), countFrames_mod_iff hlen hpos hle]
    simp [hnil]
end

end start

/-- **The BLE round trip.** A message that `qm_ble_transport_tx` takes goes out whole,
and the peer hands on exactly that message if and only if it `Fits`. -/
theorem roundTrip_iff (cfg : Config) (aes : Aes κ) (haes : aes.Inverts) (t p : State κ)
    (ht : Reachable cfg aes t) (hp : Peer cfg t p) (txType : TxType) (msgId cmd : UInt8)
    (htx : isValidTxCommand cmd = true) (hrx : isValidRxCommand cmd = true) (pData : Option Bytes) (fuel : Nat)
    (hfuel : (pData.getD []).length + 4 ≤ fuel)
    (hsuccess : ∃ r, transportTx cfg aes reliable fuel txType msgId cmd pData (pData.getD []).length t = some r ∧
      r.code = .success) :
    ∃ r, transfer cfg aes reliable fuel txType msgId cmd pData (pData.getD []).length t = some r ∧
      (RoundTrips (receive cfg aes p (packets r.out)).2 (msgIdOf t cmd msgId) cmd (pData.getD []) ↔
        Fits cfg t msgId cmd (pData.getD [])) := by
  obtain ⟨r, hr, hcode⟩ := hsuccess
  obtain ⟨hdata, hlen, hfree⟩ := transportTx_success hr hcode
  obtain ⟨s, hs⟩ : ∃ s, s = startTx cfg txType msgId cmd pData (pData.getD []).length t := ⟨_, rfl⟩
  have hready : Ready cfg s := hs ▸ ready_startTx ht.sane htx (not_lt.mp hlen)
  obtain ⟨hcut, hcount, hlo, hle, -, -⟩ :=
    payloadMaxLen_startTx cfg txType msgId cmd pData ht.sane (pData.getD []).length
  rw [← hs] at hcut
  have hframes : lastFrame s + 4 ≤ fuel := by
    have hdiv : lastFrame s ≤ s.tx.len - 1 := div_le_self _ _
    have : s.tx.len = (pData.getD []).length := by rw [hs]; rfl
    omega
  refine ⟨_, transfer_eq hdata hlen hfree hs hready.toStarted hframes, ?_⟩
  have hpackets : packets ((List.range (lastFrame s + 1)).map (fun j => Output.packet (framePacket aes s j)) ++
      [.txDone]) = (List.range (lastFrame s + 1)).map (framePacket aes s) := by
    simp [packets, filterMap_append, filterMap_map]
  have hawait : Awaiting cfg s 0 p :=
    { key := by rw [hp.key, hs]; rfl
      ctx := by rw [hp.ctx, hs]; rfl
      capacity := hp.capacity
      bytes := by rw [hp.idle.2.2, zero_mul]
      content := by simp
      first := fun _ => by simp [Rx.framesLeft, hp.idle.1, hp.idle.2.1]
      later := fun h => absurd rfl h }
  have hcmd : s.tx.cmd = cmd := by rw [hs]; rfl
  have hmsg : s.tx.msgId = msgIdOf t cmd msgId := by rw [hs]; rfl
  have hbytes : s.tx.data = pData.getD [] := by rw [hs]; rfl
  have henc : s.tx.encrypted = encrypts t cmd := by rw [hs]; rfl
  have hiff := roundTrips_messagesOf_iff haes hready hawait (by rw [hcmd]; exact hrx)
  rw [hmsg, hcmd, hbytes, henc, msgIdOf_lt_iff ht.sane, room_startTx_iff hs hready hcut,
    announced_startTx_iff hs hcut hcount (by omega) hle, chunk_startTx hs hready hcut] at hiff
  rw [hpackets]
  refine hiff.trans ⟨?_, ?_⟩
  · rintro ⟨hid, hauth, ⟨hempty, hcounted, hsmall⟩, hroom, hpad⟩
    exact ⟨hid, hauth, hempty, hcounted, hsmall, hroom, fun he hm => hpad ⟨he, hm⟩⟩
  · rintro ⟨hid, hauth, hempty, hcounted, hsmall, hroom, hpad⟩
    exact ⟨hid, hauth, ⟨hempty, hcounted, hsmall⟩, hroom, fun hm => hpad hm.1 hm.2⟩

theorem plainAes_inverts : plainAes.Inverts := ⟨fun _ _ _ => rfl, fun _ _ _ => rfl⟩

/-- A short message in a build with authentication, under a key. -/
theorem roundTrip_iff_short :
    ∃ r, transfer shortConfig plainAes reliable 10 .indication 0 Cmd.report (some [1, 2, 3])
        3 (updateKey () (init shortConfig)) = some r ∧
      (RoundTrips (receive shortConfig plainAes (updateKey () (init shortConfig)) (packets r.out)).2
          1 Cmd.report [1, 2, 3] ↔
        Fits shortConfig (updateKey () (init shortConfig)) 0 Cmd.report [1, 2, 3]) :=
  roundTrip_iff shortConfig plainAes plainAes_inverts (updateKey () (init shortConfig))
    (updateKey () (init shortConfig)) (.key () .init) ⟨⟨rfl, rfl, rfl⟩, rfl, rfl, rfl⟩ .indication 0 Cmd.report
    (by decide) (by decide) (some [1, 2, 3]) 10 (by decide)
    (Option.map_eq_some_iff.mp (show Option.map TxResult.code _ = some .success by decide +kernel))

def longConfig : Config := ⟨true, true, 5, gattMtuSizeMax, shortConfig.frameNumber_range, .inr rfl⟩

/-- In a long MTU build at the default MTU, sixteen bytes under a key are announced
as one frame and sent as two: the peer hands on fifteen of them. -/
theorem roundTrip_two_frames_announced_as_one :
    ¬ ∀ (cfg : Config) (aes : Aes Unit), aes.Inverts → ∀ t p : State Unit, Reachable cfg aes t → Peer cfg t p →
      ∀ (txType : TxType) (msgId cmd : UInt8), isValidTxCommand cmd = true → isValidRxCommand cmd = true →
      ∀ (pData : Option Bytes) (fuel : Nat), (pData.getD []).length + 4 ≤ fuel →
      (∃ r, transportTx cfg aes reliable fuel txType msgId cmd pData (pData.getD []).length t = some r ∧
        r.code = .success) →
      ∃ r, transfer cfg aes reliable fuel txType msgId cmd pData (pData.getD []).length t = some r ∧
        RoundTrips (receive cfg aes p (packets r.out)).2 (msgIdOf t cmd msgId) cmd (pData.getD []) := by
  intro hall
  have hpayloads : (transfer longConfig plainAes reliable 20 .notification 1 Cmd.report
      (some (replicate 16 0)) 16 (updateKey () (init longConfig))).map
      (fun r => (receive longConfig plainAes (updateKey () (init longConfig)) (packets r.out)).2.map
        Message.payload) = some [replicate 15 0] := by
    decide +kernel
  have hsuccess : (transportTx longConfig plainAes reliable 20 .notification 1 Cmd.report
      (some (replicate 16 0)) 16 (updateKey () (init longConfig))).map TxResult.code = some .success := by
    decide +kernel
  obtain ⟨r, hr, m, hm, -, -, hpay⟩ := hall longConfig plainAes plainAes_inverts (updateKey () (init longConfig))
    (updateKey () (init longConfig)) (.key () .init) ⟨⟨rfl, rfl, rfl⟩, by simp [updateKey, init], rfl, rfl⟩
    .notification 1 Cmd.report (by decide) (by decide) (some (replicate 16 0)) 20 (by decide)
    (Option.map_eq_some_iff.mp hsuccess)
  change transfer longConfig plainAes reliable 20 .notification 1 Cmd.report
      (some (replicate 16 0)) 16 (updateKey () (init longConfig)) = some r at hr
  rw [hr, Option.map_some, hm] at hpayloads
  simp [hpay] at hpayloads

end Qumios.Ble.Transport
