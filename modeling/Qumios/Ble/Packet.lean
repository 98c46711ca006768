import Qumios.Ble.Reassembly

/-! One packet, built by the sender and read by the receiver.

For a cipher that decrypts what it encrypted, `payloadOf_buildPacket` says what the
receiver reads out of the packet of a payload: the payload, except that an encrypted
payload of whole blocks has no padding, and a last byte from 1 to 16 is then taken
for the length of some. -/
namespace Qumios.Ble.Transport
open List

variable {κ : Type}

/-! ### Header fields -/

/-- The cipher of the HAL decrypts what it encrypted, on whole blocks. -/
structure Aes.Inverts (aes : Aes κ) : Prop where
  length : ∀ ctx x, x.length % 16 = 0 → (aes.encrypt ctx x).length = x.length
  decrypt : ∀ ctx x, x.length % 16 = 0 → aes.decrypt ctx (aes.encrypt ctx x) = x

variable (t : State κ) (x : UInt8)

theorem and_15_toNat : (x &&& 0xF).toNat = x.toNat % 16 := by
  exact Nat.and_two_pow_sub_one_eq_mod _ 4

theorem ofNat_and_15_toNat (n : Nat) : (UInt8.ofNat n &&& 0xF).toNat = n % 16 := by
  rw [and_15_toNat, UInt8.toNat_ofNat']
  omega

theorem and_15_cases : ∃ n : Fin 16, x &&& 0xF = UInt8.ofNat n.val := by
  refine ⟨⟨x.toNat % 16, Nat.mod_lt _ (by decide)⟩, ?_⟩
  rw [← UInt8.toNat_inj, and_15_toNat, UInt8.toNat_ofNat']
  show x.toNat % 16 = x.toNat % 16 % 2 ^ 8
  omega

theorem high_nibble (y : UInt8) : ((((x &&& 0x0F) <<< 4) ||| (y &&& 0x0F)) >>> 4) &&& 0x0F = x &&& 0xF := by
  obtain ⟨n, hn⟩ := and_15_cases x
  obtain ⟨m, hm⟩ := and_15_cases y
  rw [hn, hm]
  clear hn hm
  revert n m
  decide

theorem low_nibble (y : UInt8) : (((x &&& 0x0F) <<< 4) ||| (y &&& 0x0F)) &&& 0x0F = y &&& 0xF := by
  obtain ⟨n, hn⟩ := and_15_cases x
  obtain ⟨m, hm⟩ := and_15_cases y
  rw [hn, hm]
  clear hn hm
  revert n m
  decide

section header

variable (tx : Tx) (len : UInt8) (body : Bytes)

theorem isEnc_header : Header.isEnc (header tx len ++ body) = tx.encrypted := by
  obtain ⟨n, hn⟩ := and_15_cases tx.msgId
  simp only [Header.isEnc, header, cons_append, getD_cons_zero, hn, transportVer]
  clear hn
  cases tx.encrypted <;> revert n <;> decide

theorem msgId_header : Header.msgId (header tx len ++ body) = tx.msgId &&& 0xF := by
  obtain ⟨n, hn⟩ := and_15_cases tx.msgId
  simp only [Header.msgId, header, cons_append, getD_cons_zero, hn, transportVer]
  clear hn
  cases tx.encrypted <;> revert n <;> decide

theorem cmdType_header : Header.cmdType (header tx len ++ body) = tx.cmd := rfl

theorem totalFrame_header :
    Header.totalFrame (header tx len ++ body) = UInt8.ofNat tx.totalFrame &&& 0xF :=
  high_nibble _ _

theorem frameSeq_header : Header.frameSeq (header tx len ++ body) = UInt8.ofNat tx.frameSeq &&& 0xF :=
  low_nibble _ _

theorem frameLen_header : Header.frameLen (header tx len ++ body) = len.toNat := rfl

theorem drop_header : (header tx len ++ body).drop headerSize = body := rfl

end header

/-! ### Payloads -/

def padLen (data : Bytes) : Nat := (16 - data.length % 16) % 16

def frameBody (aes : Aes κ) (t : State κ) (data : Bytes) : Bytes :=
  if t.tx.encrypted then
    aes.encrypt t.pAesCtx (data ++ List.replicate (padLen data) (UInt8.ofNat (padLen data)))
  else data

def bodyLen (t : State κ) (data : Bytes) : Nat :=
  if t.tx.encrypted then data.length + padLen data else data.length

theorem padded_mod (data : Bytes) :
    (data ++ replicate (padLen data) (UInt8.ofNat (padLen data))).length % 16 = 0 := by
  simp only [length_append, length_replicate, padLen]
  omega

variable {data : Bytes} {aes : Aes κ}

theorem bodyLen_le (t : State κ) (h : data.length ≤ 240) : bodyLen t data ≤ 240 := by
  unfold bodyLen padLen
  split <;> omega

/-- `build_packet` on a payload that fits a frame, for an inverting cipher. -/
theorem buildPacket_eq (haes : aes.Inverts) (t : State κ) (h : data.length ≤ 240) :
    ∃ body, buildPacket aes t data = header t.tx (UInt8.ofNat (bodyLen t data)) ++ body ∧
      body.length = bodyLen t data ∧ (data ≠ [] → body = frameBody aes t data) := by
  by_cases hne : data = []
  · subst hne
    refine ⟨[], ?_, ?_, fun h => absurd rfl h⟩ <;> simp [buildPacket, bodyLen, padLen]
  · have hpos : data.length ≠ 0 := fun h0 => hne (length_eq_zero_iff.mp h0)
    cases henc : t.tx.encrypted with
    | false => exact ⟨data, by simp [buildPacket, bodyLen, henc], by simp [bodyLen, henc], by simp [frameBody, henc]⟩
    | true =>
      have hlen := haes.length t.pAesCtx _ (padded_mod data)
      have hfit : ¬ data.length > frameSizeMax := Nat.not_lt.mpr h
      have hpad : (aesBlkSize - data.length % aesBlkSize) % aesBlkSize = padLen data := rfl
      refine ⟨frameBody aes t data, ?_, ?_, fun _ => rfl⟩
      · unfold buildPacket doEncrypt
        dsimp only
        rw [if_pos (by simp [hpos, henc]), if_neg hfit, hpad, take_of_length_le (Nat.le_of_eq hlen)]
        simp only [frameBody, bodyLen, henc, if_true, UInt8.ofNat_add]
      · simp only [frameBody, bodyLen, henc, if_true, hlen, length_append, length_replicate]

def lastByte (data : Bytes) : Nat := (data.getD (data.length - 1) 0).toNat

def Misread (data : Bytes) : Prop := data.length % 16 = 0 ∧ 1 ≤ lastByte data ∧ lastByte data ≤ 16

instance (data : Bytes) : Decidable (Misread data) := by unfold Misread; infer_instance

/-- The byte `do_decrypt` reads its padding length from. -/
theorem lastByte_padded (h : data.length ≤ 240) :
    lastByte (data ++ replicate (padLen data) (UInt8.ofNat (padLen data))) =
      if data.length % 16 = 0 then lastByte data else padLen data := by
  by_cases hmod : data.length % 16 = 0
  · have hzero : padLen data = 0 := by
      unfold padLen
      omega
    simp [hzero, hmod]
  · have hpos : 0 < padLen data ∧ padLen data < 16 := by
      unfold padLen
      omega
    rw [if_neg hmod, lastByte, List.getD_append_right _ _ _ _ (by simp; omega), getD_replicate]
    · rw [UInt8.toNat_ofNat']
      omega
    · simp only [length_append, length_replicate]
      omega

/-- `do_decrypt` gives whole blocks back, up to what their last byte makes it cut off. -/
theorem doDecrypt_blocks (haes : aes.Inverts) (ctx : Option κ) {x : Bytes} (hmod : x.length % 16 = 0)
    (h : x.length ≤ 240) (hpos : 0 < x.length) :
    doDecrypt aes ctx (aes.encrypt ctx x) =
      if lastByte x < 1 || lastByte x > 16 then x else x.take (x.length - lastByte x) := by
  have hfit : ¬ x.length > frameSizeMax := Nat.not_lt.mpr h
  have hblocks : x.length / aesBlkSize * aesBlkSize = x.length := Nat.div_mul_cancel (Nat.dvd_of_mod_eq_zero hmod)
  have hlast : ((x ++ replicate (frameSizeMax - x.length) 0).getD (x.length - 1) 0).toNat = lastByte x := by
    rw [getD_append _ _ _ _ (by omega)]
    rfl
  have htake (n : Nat) (hn : n ≤ x.length) :
      (x ++ replicate (frameSizeMax - x.length) 0).take n = x.take n :=
    take_append_of_le_length hn
  have hlen := haes.length ctx x hmod
  unfold doDecrypt
  dsimp only
  rw [hlen, if_neg hfit, hblocks, take_of_length_le (Nat.le_of_eq hlen), haes.decrypt ctx x hmod,
    take_of_length_le (Nat.le_refl _), hlast, htake _ (Nat.le_refl _), htake _ (Nat.sub_le _ _),
    take_of_length_le (Nat.le_refl _)]

theorem doDecrypt_encrypt (haes : aes.Inverts) (ctx : Option κ) (h : data.length ≤ 240) (hne : data ≠ []) :
    doDecrypt aes ctx
      (aes.encrypt ctx (data ++ replicate (padLen data) (UInt8.ofNat (padLen data)))) =
      if Misread data then data.take (data.length - lastByte data) else data := by
  have hpos : 0 < data.length := length_pos_iff.mpr hne
  have hlen : (data ++ replicate (padLen data) (UInt8.ofNat (padLen data))).length =
      data.length + padLen data := by simp
  have hpad : data.length + padLen data ≤ 240 := by
    unfold padLen
    omega
  rw [doDecrypt_blocks haes ctx (padded_mod data) (by omega) (by omega), lastByte_padded h, hlen]
  by_cases hwhole : data.length % 16 = 0
  · have hzero : padLen data = 0 := by
      unfold padLen
      omega
    rw [if_pos hwhole, hzero]
    by_cases hbyte : 1 ≤ lastByte data ∧ lastByte data ≤ 16
    · rw [if_neg (by simp; omega), if_pos ⟨hwhole, hbyte⟩]
      simp
    · rw [if_pos (by simp; omega), if_neg (fun hm => hbyte hm.2)]
      simp
  · have hrange : 1 ≤ padLen data ∧ padLen data ≤ 16 := by
      unfold padLen
      omega
    rw [if_neg hwhole, if_neg (by simp; omega), if_neg (fun hm => hwhole hm.1), Nat.add_sub_cancel]
    simp

def received (t : State κ) (data : Bytes) : Bytes :=
  if t.tx.encrypted ∧ Misread data then data.take (data.length - lastByte data) else data

theorem payloadOf_buildPacket (haes : aes.Inverts) {t : State κ} (h : data.length ≤ 240) :
    payloadOf aes t.pAesCtx (buildPacket aes t data) = received t data := by
  obtain ⟨body, heq, hlen, hbody⟩ := buildPacket_eq haes t h
  have hle := bodyLen_le t h
  rw [heq, payloadOf, decode, drop_header, frameLen_header, UInt8.toNat_ofNat', isEnc_header,
    take_of_length_le (by omega)]
  by_cases hne : data = []
  · subst hne
    have hnil : body = [] := length_eq_zero_iff.mp (by rw [hlen]; simp [bodyLen, padLen])
    simp [hnil, received]
  · have hpos : 0 < body.length := by
      have : 0 < data.length := length_pos_iff.mpr hne
      rw [hlen, bodyLen]
      split <;> omega
    cases henc : t.tx.encrypted with
    | false => simp [received, frameBody, henc, hbody hne]
    | true =>
      rw [if_pos (by simpa using hpos), hbody hne]
      simp only [frameBody, henc, if_true, received, true_and]
      exact doDecrypt_encrypt haes t.pAesCtx h hne

theorem received_length_le (data : Bytes) : (received t data).length ≤ data.length := by
  unfold received
  split
  · simp
  · exact Nat.le_refl _

/-- The receiver has the payload right exactly when it does not take data for padding. -/
theorem received_eq_iff (data : Bytes) : received t data = data ↔ ¬ (t.tx.encrypted = true ∧ Misread data) := by
  unfold received
  split
  · next h =>
    refine ⟨fun heq => ?_, fun hn => absurd h hn⟩
    have hlast := h.2.2.1
    have hpos : 0 < data.length := by
      by_contra hzero
      have : data = [] := length_eq_zero_iff.mp (by omega)
      subst this
      simp [lastByte] at hlast
    have := congrArg List.length heq
    rw [length_take] at this
    omega
  · next h => exact ⟨fun _ => h, fun _ => rfl⟩

end Qumios.Ble.Transport
