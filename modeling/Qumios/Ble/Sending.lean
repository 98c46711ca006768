import Qumios.Ble.Transport

/-! A whole message on a link that takes every packet.

`startTx` fixes the message; from there `send_fragment` and the confirmations of
the peer cut it into frames of `payload_max_len` bytes. `transfer_eq` says what
goes out, for notifications and indications alike: frames `0, …, lastFrame`, each
built from its own piece of the data, then the end of the transmission. -/
namespace Qumios.Ble.Transport
open List

variable {κ : Type}

/-! ### States the transport can have -/

/-- The states of `g_qm_transport` from `qm_ble_transport_init` on. `qm_ble_trans_update_mtu`
runs in long MTU builds, with an MTU the stack was configured for. -/
inductive Reachable (cfg : Config) (aes : Aes κ) : State κ → Prop
  | init : Reachable cfg aes (init cfg)
  | mtu {t : State κ} (mtu : Nat) : cfg.longMtu = true → gattMtuSizeDefault ≤ mtu →
      mtu ≤ cfg.maxSupportedMtu → Reachable cfg aes t → Reachable cfg aes (updateMtu mtu t)
  | key {t : State κ} (key : κ) : Reachable cfg aes t → Reachable cfg aes (updateKey key t)
  | reset {t : State κ} : Reachable cfg aes t → Reachable cfg aes (reset t)
  | txTimeout {t : State κ} : Reachable cfg aes t → Reachable cfg aes (onTxTimeout t).1
  | rxTimeout {t : State κ} : Reachable cfg aes t → Reachable cfg aes (onRxTimeout t)
  | rx {t : State κ} (buf : Bytes) (length : Nat) : Reachable cfg aes t →
      Reachable cfg aes (transportRx cfg aes buf length t).1
  | tx {t : State κ} {r : TxResult κ} (link : Link) (fuel : Nat) (txType : TxType) (msgId cmd : UInt8)
      (pData : Option Bytes) (length : Nat) : Reachable cfg aes t →
      transportTx cfg aes link fuel txType msgId cmd pData length t = some r → Reachable cfg aes r.state
  | txdone {t t' : State κ} {out : List Output} (link : Link) (fuel pktSent : Nat) : Reachable cfg aes t →
      transportTxdone aes link fuel pktSent t = some (t', out) → Reachable cfg aes t'

/-- The packet sizes and message counters of a transport in use. -/
structure Sane (t : State κ) : Prop where
  pktSize : ∃ k, 1 ≤ k ∧ k ≤ 15 ∧ t.maxPktSize = 16 * k + 4
  txMsgId : t.txMsgId.toNat ≤ 15

variable {t t' s : State κ} {aes : Aes κ} {fuel length i c : Nat} {link : Link} {out : List Output}
  {cfg : Config} {cmd msgId : UInt8} {pData : Option Bytes} {txType : TxType}

theorem Sane.of_eq (h : Sane t) (hsize : t'.maxPktSize = t.maxPktSize) (hid : t'.txMsgId = t.txMsgId) : Sane t' :=
  ⟨hsize ▸ h.pktSize, hid ▸ h.txMsgId⟩

theorem Sane.of_pktSize (h : Sane t) {size : Nat} (hsize : ∃ k, 1 ≤ k ∧ k ≤ 15 ∧ size = 16 * k + 4) :
    Sane { t with maxPktSize := size } :=
  ⟨hsize, h.txMsgId⟩

/-- What sending leaves alone: everything but the progress of the message. -/
structure SameSetup (t t' : State κ) : Prop where
  pktSize : t'.maxPktSize = t.maxPktSize
  txMsgId : t'.txMsgId = t.txMsgId
  pKey : t'.pKey = t.pKey
  pAesCtx : t'.pAesCtx = t.pAesCtx
  encrypted : t'.tx.encrypted = t.tx.encrypted
  activeFunc : t'.tx.activeFunc = t.tx.activeFunc

variable {t'' : State κ} {n : Nat} {out' : List Output}

theorem SameSetup.trans (h : SameSetup t t') (h' : SameSetup t' t'') : SameSetup t t'' where
  pktSize := h'.pktSize.trans h.pktSize
  txMsgId := h'.txMsgId.trans h.txMsgId
  pKey := h'.pKey.trans h.pKey
  pAesCtx := h'.pAesCtx.trans h.pAesCtx
  encrypted := h'.encrypted.trans h.encrypted
  activeFunc := h'.activeFunc.trans h.activeFunc

theorem Sane.of_same (h : Sane t) (hsame : SameSetup t t') : Sane t' :=
  h.of_eq hsame.pktSize hsame.txMsgId

theorem packetSent_same (len : Nat) (t : State κ) : SameSetup t (packetSent len (offered t)) :=
  ⟨rfl, rfl, rfl, rfl, rfl, rfl⟩

theorem confirm_same (n : Nat) (t : State κ) : SameSetup t (confirm n t) := ⟨rfl, rfl, rfl, rfl, rfl, rfl⟩

theorem txBytesLeft_confirm (n : Nat) (t : State κ) : txBytesLeft (confirm n t) = txBytesLeft t := by
  simp only [txBytesLeft, confirm]

theorem attempts_confirm (n : Nat) (t : State κ) : (confirm n t).tx.attempts = t.tx.attempts := by
  simp only [confirm]

theorem resetTx_same (t : State κ) : SameSetup t (resetTx t) := ⟨rfl, rfl, rfl, rfl, rfl, rfl⟩

theorem sendLoop_same (h : sendLoop aes link fuel t = some (t', out, n)) : SameSetup t t' := by
  induction fuel generalizing t t' out n with
  | zero => cases h
  | succ fuel ih =>
    unfold sendLoop at h
    dsimp only at h
    split at h
    · cases h
      exact ⟨rfl, rfl, rfl, rfl, rfl, rfl⟩
    · split at h
      · cases h
        exact packetSent_same _ t
      · split at h
        · cases h
        · next hrest =>
          cases h
          exact (packetSent_same _ t).trans (ih hrest)

/-- Sending changes the progress of the message and nothing else. -/
theorem send_same (fuel : Nat) :
    (∀ {t t' : State κ} {out : List Output}, sendFragment aes link fuel t = some (t', out) →
      SameSetup t t') ∧
    (∀ {n : Nat} {t t' : State κ} {out : List Output}, transportTxdone aes link fuel n t = some (t', out) →
      SameSetup t t') := by
  induction fuel with
  | zero => exact ⟨fun h => by simp [sendFragment] at h, fun h => by simp [transportTxdone] at h⟩
  | succ fuel ih =>
    constructor
    · intro t t' out h
      unfold sendFragment at h
      split at h
      · cases h
      · next hloop =>
        have hsame := sendLoop_same hloop
        split at h
        · split at h
          · cases h
          · next hdone =>
            cases h
            exact hsame.trans (ih.2 hdone)
        · cases h
          exact hsame
    · intro n t t' out h
      unfold transportTxdone at h
      dsimp only at h
      have hsame := confirm_same n t
      split at h
      · exact hsame.trans (ih.1 h)
      · split at h
        · split at h <;> cases h
          · exact hsame.trans (resetTx_same _)
          · exact hsame
        · split at h <;> cases h
          · exact hsame.trans (resetTx_same _)
          · exact hsame

theorem transportRx_same (cfg : Config) (aes : Aes κ) (buf : Bytes) (length : Nat) (t : State κ) :
    SameSetup t (transportRx cfg aes buf length t).1 := by
  unfold transportRx
  dsimp only
  repeat' split
  all_goals exact ⟨rfl, rfl, rfl, rfl, rfl, rfl⟩

theorem txMsgIdGet_le (h : t.txMsgId.toNat ≤ 15) : (txMsgIdGet t).toNat ≤ 15 := by
  have hadd : (t.txMsgId + 1).toNat = t.txMsgId.toNat + 1 := by
    exact Nat.mod_eq_of_lt (by simp; omega)
  unfold txMsgIdGet nextMsgId
  split
  · decide
  · next hne =>
    have : t.txMsgId.toNat + 1 ≠ 16 := by
      intro heq
      apply hne
      rw [beq_iff_eq, ← UInt8.toNat_inj, hadd, heq]
      rfl
    omega

theorem startTx_sane (h : Sane t) : Sane (startTx cfg txType msgId cmd pData length t) := by
  refine ⟨h.pktSize, ?_⟩
  show (if picksMsgId cmd msgId then txMsgIdGet t else t.txMsgId).toNat ≤ 15
  split
  · exact txMsgIdGet_le h.txMsgId
  · exact h.txMsgId

theorem mtuPktSize_eq {mtu : Nat} (hlo : 23 ≤ mtu) (hhi : mtu ≤ 247) :
    ∃ k, 1 ≤ k ∧ k ≤ 15 ∧ mtuPktSize mtu = 16 * k + 4 := by
  refine ⟨(mtu - 7) / 16, by omega, by omega, ?_⟩
  simp only [mtuPktSize, attHdrSize, frameHdrSize, encryBlockLength]
  omega

theorem Reachable.sane (h : Reachable cfg aes t) : Sane t := by
  induction h with
  | init => exact ⟨⟨1, by decide, by decide, rfl⟩, by simp [Transport.init]⟩
  | mtu mtu _ hlo hhi _ ih =>
    refine ih.of_pktSize (mtuPktSize_eq hlo (hhi.trans ?_))
    rcases cfg.supportedMtu_choice with heq | heq <;> rw [heq] <;> decide
  | key _ _ ih => exact ih.of_eq rfl rfl
  | reset _ ih => exact ih.of_eq rfl rfl
  | txTimeout _ ih => exact ih.of_eq rfl rfl
  | rxTimeout _ ih => exact ih.of_eq rfl rfl
  | rx buf length _ ih =>
    exact ih.of_same (transportRx_same cfg aes buf length _)
  | tx link fuel txType msgId cmd pData length _ hsend ih =>
    unfold transportTx at hsend
    repeat' split at hsend
    all_goals cases hsend
    · exact ih
    · exact ih
    · exact ih.of_eq rfl rfl
    · next hfragment =>
      exact (startTx_sane ih).of_same ((send_same _).1 hfragment)
  | txdone link fuel n _ hdone ih =>
    exact ih.of_same ((send_same _).2 hdone)

/-! ### The frames of a message -/

/-- A message the transport has accepted and not begun to send. -/
structure Started (s : State κ) : Prop where
  len : s.tx.len = s.tx.data.length
  bound : s.tx.len ≤ 4800
  cut_pos : 0 < payloadMaxLen s
  command : isValidTxCommand s.tx.cmd = true
  bytesSent : s.tx.bytesSent = 0
  frameSeq : s.tx.frameSeq = 0
  pktReq : s.tx.pktReq = 0
  pktCfm : s.tx.pktCfm = 0

/-- The message with `sent` frames out and `confirmed` of them confirmed. -/
def progress (s : State κ) (sent confirmed : Nat) : State κ :=
  { s with tx := { s.tx with
      pktReq := sent
      pktCfm := confirmed
      frameSeq := sent % 256
      bytesSent := min (sent * payloadMaxLen s) s.tx.len
      attempts := s.tx.attempts + sent } }

theorem progress_zero (h : Started s) : progress s 0 0 = s := by
  obtain ⟨_, _, _, _, h1, h2, h3, h4⟩ := h
  obtain ⟨tx, _, _, _, _, _⟩ := s
  obtain ⟨⟩ := tx
  simp_all [progress]

def lastFrame (s : State κ) : Nat := (s.tx.len - 1) / payloadMaxLen s

def chunk (s : State κ) (i : Nat) : Bytes := (s.tx.data.drop (i * payloadMaxLen s)).take (payloadMaxLen s)

def framePacket (aes : Aes κ) (s : State κ) (i : Nat) : Bytes := buildPacket aes (progress s i 0) (chunk s i)

theorem lastFrame_mul_le (s : State κ) : lastFrame s * payloadMaxLen s ≤ s.tx.len :=
  (Nat.div_mul_le_self _ _).trans (Nat.sub_le _ _)

theorem mul_le_of_le_lastFrame (hi : i ≤ lastFrame s) : i * payloadMaxLen s ≤ s.tx.len :=
  (Nat.mul_le_mul_right _ hi).trans (lastFrame_mul_le s)

section
variable (h : Started s)
include h

/-- Only the last frame empties the message. -/
theorem len_le_mul_iff (hi : i ≤ lastFrame s) : s.tx.len ≤ (i + 1) * payloadMaxLen s ↔ i = lastFrame s := by
  have hcut := h.cut_pos
  constructor
  · intro hle
    have : lastFrame s < i + 1 := by
      rw [lastFrame, Nat.div_lt_iff_lt_mul hcut]
      have : 0 < (i + 1) * payloadMaxLen s := Nat.mul_pos (Nat.succ_pos i) hcut
      omega
    omega
  · rintro rfl
    have := Nat.lt_mul_div_succ (s.tx.len - 1) hcut
    rw [Nat.mul_comm] at this
    simp only [lastFrame]
    omega

theorem lastFrame_lt : lastFrame s < 4801 :=
  Nat.lt_of_le_of_lt ((Nat.div_le_self _ _).trans (Nat.sub_le _ _)) (Nat.lt_succ_of_le h.bound)

theorem txBytesLeft_progress (i c : Nat) : txBytesLeft (progress s i c) = s.tx.len - i * payloadMaxLen s := by
  have := h.bound
  simp only [txBytesLeft, progress]
  omega

theorem nextPacket_progress (hi : i ≤ lastFrame s) : nextPacket aes (progress s i c) = framePacket aes s i := by
  have hle := mul_le_of_le_lastFrame hi
  have hpiece : ((progress s i c).tx.data.drop (progress s i c).tx.bytesSent).take
      (min (txBytesLeft (progress s i c)) (payloadMaxLen (progress s i c))) = chunk s i := by
    rw [txBytesLeft_progress h]
    show (s.tx.data.drop (min (i * payloadMaxLen s) s.tx.len)).take
      (min (s.tx.len - i * payloadMaxLen s) (payloadMaxLen s)) = _
    rw [Nat.min_eq_left hle, chunk, take_eq_take_iff, length_drop, ← h.len]
    omega
  rw [nextPacket, hpiece]
  rfl

theorem packetSent_progress (hi : i ≤ lastFrame s) :
    packetSent (min (txBytesLeft (progress s i c)) (payloadMaxLen (progress s i c)))
      (offered (progress s i c)) = progress s (i + 1) c := by
  have hlt := lastFrame_lt h
  have hbound := h.bound
  have hreq : (i + 1) % 65536 = i + 1 := Nat.mod_eq_of_lt (by omega)
  have hseq : (i % 256 + 1) % 256 = (i + 1) % 256 := by omega
  have hsent : (min (i * payloadMaxLen s) s.tx.len + min (s.tx.len - i * payloadMaxLen s) (payloadMaxLen s)) %
      65536 = min ((i + 1) * payloadMaxLen s) s.tx.len := by
    rw [Nat.add_mul, Nat.one_mul]
    omega
  rw [txBytesLeft_progress h]
  show packetSent (min (s.tx.len - i * payloadMaxLen s) (payloadMaxLen s)) _ = _
  simp only [packetSent, offered, progress, hreq, hseq, hsent, Nat.add_assoc]
end

theorem confirm_progress (h : c + n < 65536) : confirm n (progress s i c) = progress s i (c + n) := by
  simp only [confirm, progress, Nat.mod_eq_of_lt h]

/-! ### Sending them -/

def reliable : Link := fun _ => true

section
variable (h : Started s)
include h

/-- One turn of the loop of `send_fragment`. -/
theorem sendLoop_succ (hi : i ≤ lastFrame s) :
    sendLoop aes reliable (fuel + 1) (progress s i c) =
      if s.tx.activeFunc = .indication ∨ i = lastFrame s then
        some (progress s (i + 1) c, [.packet (framePacket aes s i)], 1)
      else
        match sendLoop aes reliable fuel (progress s (i + 1) c) with
        | none => none
        | some (t', out, pktSent) => some (t', .packet (framePacket aes s i) :: out, (pktSent + 1) % 65536) := by
  have hleft : txBytesLeft (progress s (i + 1) c) = 0 ↔ i = lastFrame s := by
    rw [txBytesLeft_progress h, ← len_le_mul_iff h hi]
    omega
  rw [sendLoop]
  rw [packetSent_progress h hi, nextPacket_progress h hi]
  simp only [reliable, Bool.not_true, Bool.false_eq_true, if_false, Bool.or_eq_true, decide_eq_true_eq, hleft]
  rfl

theorem sendLoop_notifications (hn : s.tx.activeFunc = .notification) (hi : i ≤ lastFrame s)
    (hfuel : lastFrame s - i < fuel) :
    sendLoop aes reliable fuel (progress s i 0) =
      some (progress s (lastFrame s + 1) 0,
        (List.range' i (lastFrame s + 1 - i)).map (fun j => .packet (framePacket aes s j)),
        lastFrame s + 1 - i) := by
  induction fuel generalizing i with
  | zero => omega
  | succ fuel ih =>
    have hlt := lastFrame_lt h
    rw [sendLoop_succ h hi]
    by_cases hlast : i = lastFrame s
    · subst hlast
      rw [if_pos (.inr rfl), Nat.add_sub_cancel_left]
      rfl
    · have hcond : ¬ (s.tx.activeFunc = .indication ∨ i = lastFrame s) := by simp [hn, hlast]
      have hcount : lastFrame s + 1 - i = (lastFrame s + 1 - (i + 1)) + 1 := by omega
      rw [if_neg hcond, ih (by omega) (by omega), hcount, range'_succ]
      dsimp only
      rw [Nat.mod_eq_of_lt (by omega)]
      rfl

/-- The last confirmation ends the transmission. -/
theorem txdone_last (hall : c + n = lastFrame s + 1) :
    transportTxdone aes reliable (fuel + 1) n (progress s (lastFrame s + 1) c) =
      some (resetTx (progress s (lastFrame s + 1) (c + n)), [.txDone]) := by
  have hlt := lastFrame_lt h
  have hleft : txBytesLeft (progress s (lastFrame s + 1) (c + n)) = 0 := by
    rw [txBytesLeft_progress h]
    have := (len_le_mul_iff h (Nat.le_refl _)).mpr rfl
    omega
  rw [transportTxdone, confirm_progress (by omega), hleft]
  have hcmd : isValidTxCommand (progress s (lastFrame s + 1) (c + n)).tx.cmd = true := h.command
  have heq : (progress s (lastFrame s + 1) (c + n)).tx.pktReq =
      (progress s (lastFrame s + 1) (c + n)).tx.pktCfm ∧
      (progress s (lastFrame s + 1) (c + n)).tx.pktReq ≠ 0 := ⟨hall.symm, Nat.succ_ne_zero _⟩
  rw [if_neg (by simp), if_pos heq, if_pos hcmd]

theorem sendFragment_notifications (hn : s.tx.activeFunc = .notification) (hfuel : lastFrame s + 1 < fuel) :
    sendFragment aes reliable (fuel + 1) s =
      some (resetTx (progress s (lastFrame s + 1) (lastFrame s + 1)),
        (List.range (lastFrame s + 1)).map (fun j => .packet (framePacket aes s j)) ++ [.txDone]) := by
  obtain ⟨fuel, rfl⟩ : ∃ f, fuel = f + 1 := ⟨fuel - 1, by omega⟩
  have hloop : sendLoop aes reliable (fuel + 1) (progress s 0 0) = _ :=
    sendLoop_notifications h hn (Nat.zero_le _) (by omega)
  rw [progress_zero h] at hloop
  rw [sendFragment, hloop]
  dsimp only
  rw [if_pos (show (progress s (lastFrame s + 1) 0).tx.activeFunc = .notification from hn),
    txdone_last h (by omega)]
  simp [range_eq_range']

theorem sendFragment_indication (hn : s.tx.activeFunc = .indication) (hi : i ≤ lastFrame s) :
    sendFragment aes reliable (fuel + 2) (progress s i c) =
      some (progress s (i + 1) c, [.packet (framePacket aes s i)]) := by
  rw [sendFragment, sendLoop_succ h hi, if_pos (.inl hn)]
  dsimp only
  rw [if_neg]
  show ¬ s.tx.activeFunc = .notification
  rw [hn]
  decide

theorem txdone_next (hn : s.tx.activeFunc = .indication) (hi : i < lastFrame s) :
    transportTxdone aes reliable (fuel + 3) 1 (progress s (i + 1) i) =
      some (progress s (i + 2) (i + 1), [.packet (framePacket aes s (i + 1))]) := by
  have hlt := lastFrame_lt h
  have hleft : txBytesLeft (progress s (i + 1) (i + 1)) ≠ 0 := by
    rw [txBytesLeft_progress h]
    have := (len_le_mul_iff h (Nat.le_of_lt hi)).mp.mt (by omega)
    omega
  rw [transportTxdone, confirm_progress (by omega), if_pos hleft]
  exact sendFragment_indication h hn hi
end

theorem resetTx_idle (t : State κ) : (resetTx t).tx.pktReq = (resetTx t).tx.pktCfm := rfl

/-- The peer confirms each indication until none is outstanding. -/
def confirmAll (aes : Aes κ) (link : Link) : Nat → State κ → Option (State κ × List Output)
  | 0, _ => none
  | fuel + 1, t =>
    if t.tx.pktReq = t.tx.pktCfm then some (t, [])
    else
      match transportTxdone aes link fuel 1 t with
      | none => none
      | some (t', out) =>
        match confirmAll aes link fuel t' with
        | none => none
        | some (t'', out') => some (t'', out ++ out')

theorem confirmAll_idle (h : t.tx.pktReq = t.tx.pktCfm) : confirmAll aes link (fuel + 1) t = some (t, []) := by
  rw [confirmAll, if_pos h]

theorem confirmAll_step (hout : t.tx.pktReq ≠ t.tx.pktCfm)
    (hdone : transportTxdone aes link fuel 1 t = some (t', out))
    (hrest : confirmAll aes link fuel t' = some (t'', out')) :
    confirmAll aes link (fuel + 1) t = some (t'', out ++ out') := by
  rw [confirmAll, if_neg hout, hdone]
  dsimp only
  rw [hrest]

theorem confirmAll_indications (h : Started s) (hn : s.tx.activeFunc = .indication) (hi : i ≤ lastFrame s)
    (hfuel : lastFrame s - i + 4 ≤ fuel) :
    confirmAll aes reliable fuel (progress s (i + 1) i) =
      some (resetTx (progress s (lastFrame s + 1) (lastFrame s + 1)),
        (List.range' (i + 1) (lastFrame s - i)).map (fun j => .packet (framePacket aes s j)) ++ [.txDone]) := by
  induction fuel generalizing i with
  | zero => omega
  | succ fuel ih =>
    have hout : ¬ (progress s (i + 1) i).tx.pktReq = (progress s (i + 1) i).tx.pktCfm := Nat.succ_ne_self i
    obtain ⟨fuel, rfl⟩ : ∃ f, fuel = f + 3 := ⟨fuel - 3, by omega⟩
    by_cases hlast : i = lastFrame s
    · subst hlast
      rw [confirmAll_step hout (txdone_last h rfl) (confirmAll_idle (resetTx_idle _))]
      simp
    · have hcount : lastFrame s - i = (lastFrame s - (i + 1)) + 1 := by omega
      rw [confirmAll_step hout (txdone_next h hn (by omega)) (ih (by omega) (by omega)), hcount,
        range'_succ]
      simp

/-- A message, from the call until nothing is outstanding. -/
def transfer (cfg : Config) (aes : Aes κ) (link : Link) (fuel : Nat) (txType : TxType) (msgId cmd : UInt8)
    (pData : Option Bytes) (length : Nat) (t : State κ) : Option (TxResult κ) :=
  match transportTx cfg aes link fuel txType msgId cmd pData length t with
  | none => none
  | some r =>
    match confirmAll aes link fuel r.state with
    | none => none
    | some (t', out) => some ⟨t', r.code, r.out ++ out⟩

theorem transfer_of_tx {code : RetCode}
    (htx : transportTx cfg aes link fuel txType msgId cmd pData length t = some ⟨t', code, out⟩)
    (hrest : confirmAll aes link fuel t' = some (t'', out')) :
    transfer cfg aes link fuel txType msgId cmd pData length t = some ⟨t'', code, out ++ out'⟩ := by
  rw [transfer, htx]
  dsimp only
  rw [hrest]

section
variable (hdata : ¬ (pData.isNone && length ≠ 0) = true) (hlen : ¬ length > cfg.maxPayloadSize)
  (hfree : ¬ (txBytesLeft t ≠ 0 || t.tx.pktReq ≠ t.tx.pktCfm) = true)
include hdata hlen hfree

/-- An accepted call starts `send_fragment`. -/
theorem transportTx_accepted : transportTx cfg aes link fuel txType msgId cmd pData length t =
    (sendFragment aes link fuel (startTx cfg txType msgId cmd pData length t)).map fun r => ⟨r.1, .success, r.2⟩ := by
  rw [transportTx, if_neg hdata, if_neg hlen, if_neg hfree]
  cases sendFragment aes link fuel (startTx cfg txType msgId cmd pData length t) <;> rfl

theorem transportTx_of_send
    (hsend : sendFragment aes link fuel (startTx cfg txType msgId cmd pData length t) = some (t', out)) :
    transportTx cfg aes link fuel txType msgId cmd pData length t = some ⟨t', .success, out⟩ := by
  rw [transportTx_accepted hdata hlen hfree, hsend]
  rfl

/-- **What goes out.** With fuel for the message, a call that finds the transport free
sends frames `0, …, lastFrame`, in order and once each, and then reports the end of
the transmission. -/
theorem transfer_eq (hs : s = startTx cfg txType msgId cmd pData length t) (h : Started s)
    (hfuel : lastFrame s + 4 ≤ fuel) :
    transfer cfg aes reliable fuel txType msgId cmd pData length t =
      some ⟨resetTx (progress s (lastFrame s + 1) (lastFrame s + 1)), .success,
        (List.range (lastFrame s + 1)).map (fun j => .packet (framePacket aes s j)) ++ [.txDone]⟩ := by
  obtain ⟨fuel, rfl⟩ : ∃ f, fuel = f + 2 := ⟨fuel - 2, by omega⟩
  have hactive : s.tx.activeFunc = txType := by rw [hs]; rfl
  cases txType with
  | notification =>
    have hsend : sendFragment aes reliable (fuel + 2) s = _ :=
      sendFragment_notifications h hactive (by omega)
    rw [transfer_of_tx (transportTx_of_send hdata hlen hfree (hs ▸ hsend)) (confirmAll_idle (resetTx_idle _)),
      append_nil, ← hs]
  | indication =>
    have hsend : sendFragment aes reliable (fuel + 2) (progress s 0 0) = _ :=
      sendFragment_indication h hactive (Nat.zero_le _)
    rw [progress_zero h] at hsend
    rw [transfer_of_tx (transportTx_of_send hdata hlen hfree (hs ▸ hsend))
      (hs ▸ confirmAll_indications h hactive (Nat.zero_le _) (by omega))]
    simp [range_eq_range', range'_succ, hs]

end

end Qumios.Ble.Transport
