import Qumios.Ble.Transport
import Qumios.Lib.Run

/-! What the receiver hands to the dispatcher.

Whatever arrives — packets of any bytes and any length, receive timeouts, resets
and key changes in any order — the receive buffer is never overrun, and every
message handed on is the concatenation of the payloads of one run of accepted
packets with the same message identifier, command and frame count and the frame
numbers `0, 1, …, total_frame`, all accepted after the last thing that cleared
the receiver (`reassembly_sound`). -/
namespace Qumios.Ble.Transport
open Buffer Run List

variable {κ : Type}

/-! ### One packet -/

/-- The payload of a packet, decoded under a cipher context: `FRAME_LEN` bytes,
decrypted if the header says so. -/
def payloadOf (aes : Aes κ) (ctx : Option κ) (buf : Bytes) : Bytes :=
  decode aes ctx buf (Header.frameLen buf)

theorem doDecrypt_length_le (aes : Aes κ) (ctx : Option κ) (data : Bytes) :
    (doDecrypt aes ctx data).length ≤ data.length := by
  unfold doDecrypt
  dsimp only
  split
  · exact Nat.le_refl _
  · split <;> simp only [length_take] <;> omega

theorem decode_length_le (aes : Aes κ) (ctx : Option κ) (buf : Bytes) (room : Nat) :
    (decode aes ctx buf room).length ≤ room := by
  have hdata : ((buf.drop headerSize).take (min room (Header.frameLen buf))).length ≤ room := by
    simp only [length_take]
    omega
  unfold decode
  dsimp only
  split
  · exact (doDecrypt_length_le _ _ _).trans hdata
  · exact hdata

theorem decode_of_room (aes : Aes κ) (ctx : Option κ) (buf : Bytes) (room : Nat)
    (h : Header.frameLen buf ≤ room) : decode aes ctx buf room = payloadOf aes ctx buf := by
  unfold payloadOf decode
  rw [Nat.min_eq_right h, Nat.min_self]

/-- The checks leave no packet whose frame is longer than what arrived. -/
theorem frameLen_le_of_rxCheck {keyed : Bool} {buf : Bytes} {length : Nat}
    (h : rxCheck keyed buf length = none) : headerSize + Header.frameLen buf ≤ length := by
  unfold rxCheck at h
  split at h
  · cases h
  · split at h
    · cases h
    · split at h
      · cases h
      · next hsize =>
        cases henc : Header.isEnc buf <;> simp [henc] at hsize <;> omega

/-- Everything a packet can do. -/
theorem transportRx_cases (cfg : Config) (aes : Aes κ) (buf : Bytes) (length : Nat) (t : State κ) :
    (transportRx cfg aes buf length t = (t, .ignored)) ∨
    (∃ (rx : Rx) (src : ErrorSrc) (code : RetCode),
      transportRx cfg aes buf length t = ({ t with rx := rx.reset }, .rejected src code) ∧
      rx.buff = t.rx.buff) ∨
    (∃ rx, t.rx.frame buf = .ok rx ∧ rx.buff = t.rx.buff ∧
      Header.frameLen buf + t.rx.bytesReceived ≤ cfg.maxPayloadSize ∧
      ∃ data, data = decode aes t.pAesCtx buf (cfg.maxPayloadSize - rx.bytesReceived) ∧
      transportRx cfg aes buf length t =
        if (rx.store data).framesLeft then ({ t with rx := rx.store data }, .stored data)
        else ({ t with rx := (rx.store data).reset },
          .completed data (transRxDispatcher cfg (rx.store data)))) := by
  have hbuff {rx : Rx} (h : t.rx.frame buf = .ok rx) : rx.buff = t.rx.buff := by
    unfold Rx.frame at h
    split at h <;> split at h <;> cases h <;> rfl
  unfold transportRx
  split
  · exact .inl rfl
  · split
    · exact .inr (.inl ⟨t.rx, .rxBuffSize, .edatasize, rfl, rfl⟩)
    · next hroom =>
      cases hf : t.rx.frame buf with
      | error src => exact .inr (.inl ⟨t.rx, src, .einvaliddata, rfl, rfl⟩)
      | ok rx =>
        cases hc : rxCheck t.pKey.isSome buf length with
        | some err =>
          obtain ⟨src, code⟩ := err
          exact .inr (.inl ⟨rx, src, code, rfl, hbuff hf⟩)
        | none =>
          have hlen := frameLen_le_of_rxCheck hc
          refine .inr (.inr ⟨rx, rfl, hbuff hf, ?_, _, rfl, ?_⟩)
          · omega
          · dsimp only
            cases ((rx.store (decode aes t.pAesCtx buf (cfg.maxPayloadSize - rx.bytesReceived))).framesLeft)
              <;> rfl

/-! ### The receiver as a machine -/

inductive RxEvent (κ : Type) where
  | packet (buf : Bytes) (length : Nat)
  | timeout
  | reset
  | key (key : κ)

/-- What an event shows: the cipher context it met, and what became of the packet
if it was one. -/
structure RxShown (κ : Type) where
  ctx : Option κ
  outcome : Option RxOutcome

def rxMachine (cfg : Config) (aes : Aes κ) : Machine (State κ) (RxEvent κ) (RxShown κ) where
  step := fun t e =>
    match e with
    | .packet buf length =>
      some ((transportRx cfg aes buf length t).1, ⟨t.pAesCtx, (transportRx cfg aes buf length t).2⟩)
    | .timeout => some (onRxTimeout t, ⟨t.pAesCtx, none⟩)
    | .reset => some (reset t, ⟨t.pAesCtx, none⟩)
    | .key key => some (updateKey key t, ⟨t.pAesCtx, none⟩)

def Rx.Idle (r : Rx) : Prop := r.totalFrame = 0 ∧ r.frameSeq = 0 ∧ r.bytesReceived = 0

/-- What clears the receiver: a timeout, a reset, a rejected packet, a finished message. -/
def clears : RxEvent κ × RxShown κ → Bool
  | (.timeout, _) => true
  | (.reset, _) => true
  | (_, ⟨_, some (.rejected _ _)⟩) => true
  | (_, ⟨_, some (.completed _ _)⟩) => true
  | _ => false

/-- An accepted packet, with its payload decoded under the context it met. -/
structure Frame where
  msgId : UInt8
  cmd : UInt8
  totalFrame : UInt8
  frameSeq : UInt8
  payload : Bytes

def Frame.ofPacket (aes : Aes κ) (ctx : Option κ) (buf : Bytes) : Frame :=
  ⟨Header.msgId buf, Header.cmdType buf, Header.totalFrame buf, Header.frameSeq buf, payloadOf aes ctx buf⟩

def accepted (aes : Aes κ) : RxEvent κ × RxShown κ → Option Frame
  | (.packet buf _, ⟨ctx, some (.stored _)⟩) => some (Frame.ofPacket aes ctx buf)
  | (.packet buf _, ⟨ctx, some (.completed _ _)⟩) => some (Frame.ofPacket aes ctx buf)
  | _ => none

/-- Frames `0, 1, …` of one message. -/
def Consecutive (msgId cmd totalFrame : UInt8) (fs : List Frame) : Prop :=
  ∀ (i : Nat) (h : i < fs.length),
    fs[i].msgId = msgId ∧ fs[i].cmd = cmd ∧ fs[i].totalFrame = totalFrame ∧ fs[i].frameSeq.toNat = i

/-- The message the frames make: all of them, in order, and nothing else. -/
structure Reassembled (m : Message) (fs : List Frame) : Prop where
  payload : m.payload = (fs.map Frame.payload).flatten
  frames : ∃ totalFrame : UInt8, fs.length = totalFrame.toNat + 1 ∧ Consecutive m.msgId m.cmd totalFrame fs

variable {fs : List Frame} {r rx : Rx}

theorem consecutive_append {msgId cmd totalFrame : UInt8} {f : Frame} (h : Consecutive msgId cmd totalFrame fs)
    (hf : f.msgId = msgId ∧ f.cmd = cmd ∧ f.totalFrame = totalFrame ∧ f.frameSeq.toNat = fs.length) :
    Consecutive msgId cmd totalFrame (fs ++ [f]) := by
  intro i hi
  by_cases hlt : i < fs.length
  · rw [getElem_append_left hlt]
    exact h i hlt
  · have hi' : i = fs.length := by
      simp only [length_append, length_cons, length_nil] at hi
      omega
    subst hi'
    simpa using hf

/-- The receiver in the middle of the message the frames `fs` start, or idle. -/
structure Collecting (cfg : Config) (r : Rx) (fs : List Frame) : Prop where
  capacity : r.buff.length = cfg.maxPayloadSize
  room : r.bytesReceived ≤ cfg.maxPayloadSize
  bytes : r.buff.take r.bytesReceived = (fs.map Frame.payload).flatten
  idle : fs = [] → r.Idle
  short : fs.length ≤ r.totalFrame.toNat
  index : fs ≠ [] → r.frameSeq.toNat + 1 = fs.length ∧ r.totalFrame.toNat ≤ 15
  frames : Consecutive r.msgId r.cmd r.totalFrame fs

theorem collecting_reset (cfg : Config) (r : Rx) (h : r.buff.length = cfg.maxPayloadSize) :
    Collecting cfg r.reset [] where
  capacity := h
  room := Nat.zero_le _
  bytes := by simp [Rx.reset]
  idle := fun _ => ⟨rfl, rfl, rfl⟩
  short := Nat.zero_le _
  index := fun h => absurd rfl h
  frames := fun i hi => absurd hi (Nat.not_lt_zero i)

theorem header_totalFrame_le (buf : Bytes) : (Header.totalFrame buf).toNat ≤ 15 := by
  exact Nat.and_le_right

theorem next_seq_toNat (seq : UInt8) (h : seq.toNat < 15) : ((seq + 1) &&& 0xF).toNat = seq.toNat + 1 := by
  have hadd : (seq + 1).toNat = seq.toNat + 1 := by
    exact Nat.mod_eq_of_lt (by simp; omega)
  rw [UInt8.toNat_and, hadd]
  show (seq.toNat + 1) &&& (2 ^ 4 - 1) = _
  rw [Nat.and_two_pow_sub_one_eq_mod]
  omega

variable {cfg : Config} {aes : Aes κ} {past : List (RxEvent κ × RxShown κ)} {t : State κ}

/-- A frame the receiver takes is the next one of the message, and it fits. -/
theorem collecting_frame (aes : Aes κ) (ctx : Option κ) {buf : Bytes} (h : Collecting cfg r fs)
    (hf : r.frame buf = .ok rx) (hfit : Header.frameLen buf + r.bytesReceived ≤ cfg.maxPayloadSize) :
    decode aes ctx buf (cfg.maxPayloadSize - rx.bytesReceived) = payloadOf aes ctx buf ∧
    rx.bytesReceived = r.bytesReceived ∧ rx.totalFrame.toNat ≤ 15 ∧ rx.frameSeq.toNat = fs.length ∧
    fs.length ≤ rx.totalFrame.toNat ∧
    Consecutive rx.msgId rx.cmd rx.totalFrame (fs ++ [Frame.ofPacket aes ctx buf]) := by
  have hbytes : rx.bytesReceived = r.bytesReceived ∧ rx.totalFrame.toNat ≤ 15 ∧
      rx.frameSeq.toNat = fs.length ∧ fs.length ≤ rx.totalFrame.toNat ∧
      Consecutive rx.msgId rx.cmd rx.totalFrame (fs ++ [Frame.ofPacket aes ctx buf]) := by
    unfold Rx.frame at hf
    by_cases hleft : r.framesLeft = true
    · -- a later frame: the header repeats the message's, and its index is the next
      simp only [hleft, Bool.not_true, Bool.false_eq_true, if_false] at hf
      split at hf
      · cases hf
      · next hsame =>
        cases hf
        simp only [Bool.or_eq_true, bne_iff_ne, ne_eq, not_or, Decidable.not_not] at hsame
        obtain ⟨⟨⟨hm, hc⟩, ht⟩, hs⟩ := hsame
        have hne : fs ≠ [] := by
          intro hnil
          obtain ⟨h1, h2, _⟩ := h.idle hnil
          simp [Rx.framesLeft, h1, h2] at hleft
        obtain ⟨hidx, h15⟩ := h.index hne
        have hseq : (Header.frameSeq buf).toNat = fs.length := by
          rw [← hs, next_seq_toNat _ (by have := h.short; omega), hidx]
        refine ⟨rfl, h15, hseq, h.short, consecutive_append h.frames ?_⟩
        exact ⟨hm.symm, hc.symm, ht.symm, hseq⟩
    · -- the first frame: nothing is collected yet
      simp only [hleft, Bool.not_false, if_true] at hf
      split at hf
      · cases hf
      · next hzero =>
        cases hf
        have hnil : fs = [] := by
          by_contra hne
          obtain ⟨hidx, _⟩ := h.index hne
          have heq : r.totalFrame = r.frameSeq := by simpa [Rx.framesLeft] using hleft
          have := h.short
          rw [heq] at this
          omega
        subst hnil
        have hz : Header.frameSeq buf = 0 := by simpa using hzero
        have hidle := h.idle rfl
        refine ⟨hidle.2.2.symm, header_totalFrame_le buf, rfl, Nat.zero_le _, ?_⟩
        refine consecutive_append (fun i hi => absurd hi (Nat.not_lt_zero i)) ⟨rfl, rfl, rfl, ?_⟩
        show (Header.frameSeq buf).toNat = 0
        rw [hz]
        rfl
  refine ⟨decode_of_room _ _ _ _ ?_, hbytes⟩
  omega

theorem collecting_store (aes : Aes κ) (ctx : Option κ) (buf : Bytes) (h : Collecting cfg r fs)
    (hbuff : rx.buff = r.buff) (hbytes : rx.bytesReceived = r.bytesReceived)
    (hfit : (payloadOf aes ctx buf).length + r.bytesReceived ≤ cfg.maxPayloadSize) :
    (rx.store (payloadOf aes ctx buf)).buff.length = cfg.maxPayloadSize ∧
    (rx.store (payloadOf aes ctx buf)).buff.take (rx.store (payloadOf aes ctx buf)).bytesReceived =
      ((fs ++ [Frame.ofPacket aes ctx buf]).map Frame.payload).flatten := by
  constructor
  · show (splice rx.buff rx.bytesReceived (payloadOf aes ctx buf)).length = _
    rw [length_splice _ _ _ (by rw [hbuff, hbytes, h.capacity]; omega), hbuff, h.capacity]
  · show (splice rx.buff rx.bytesReceived (payloadOf aes ctx buf)).take
      (rx.bytesReceived + (payloadOf aes ctx buf).length) = _
    rw [take_splice _ _ _ (by rw [hbuff, hbytes, h.capacity]; exact h.room), hbuff, hbytes, h.bytes]
    simp [Frame.ofPacket]

/-! ### Runs -/

/-- The invariant of a run: the receiver holds what was accepted since the last
thing that cleared it, and every message handed on so far was whole. -/
structure Received (cfg : Config) (aes : Aes κ) (past : List (RxEvent κ × RxShown κ)) (t : State κ) :
    Prop where
  collecting : ∃ before since, past = before ++ since ∧ (∀ x ∈ since, clears x = false) ∧
    Collecting cfg t.rx (since.filterMap (accepted aes))
  messages : ∀ before e ctx data m after,
    past = before ++ (e, ⟨ctx, some (.completed data (some m))⟩) :: after →
    ∃ older since, before = older ++ since ∧ (∀ x ∈ since, clears x = false) ∧
      Reassembled m ((since ++ [(e, ⟨ctx, some (.completed data (some m))⟩)]).filterMap (accepted aes))

section
variable (h : Received cfg aes past t)
include h

/-- A step that hands nothing on adds no message to the trace. -/
theorem messages_append (x : RxEvent κ × RxShown κ) (hx : ∀ data m, x.2.outcome ≠ some (.completed data (some m))) :
    ∀ before e ctx data m after,
      past ++ [x] = before ++ (e, ⟨ctx, some (.completed data (some m))⟩) :: after →
      ∃ older since, before = older ++ since ∧ (∀ x ∈ since, clears x = false) ∧
        Reassembled m ((since ++ [(e, ⟨ctx, some (.completed data (some m))⟩)]).filterMap (accepted aes)) := by
  intro before e ctx data m after heq
  obtain ⟨-, hlast, rfl⟩ | ⟨rest, rfl, hrest⟩ := split_snoc heq
  · cases hlast
    exact absurd rfl (hx data m)
  · exact h.messages before e ctx data m rest hrest

theorem received_clear {t' : State κ} (x : RxEvent κ × RxShown κ)
    (hrx : ∃ r : Rx, t'.rx = r.reset ∧ r.buff.length = cfg.maxPayloadSize)
    (hx : ∀ data m, x.2.outcome ≠ some (.completed data (some m))) : Received cfg aes (past ++ [x]) t' := by
  obtain ⟨r, hr, hlen⟩ := hrx
  refine ⟨⟨past ++ [x], [], by simp, by simp, ?_⟩, messages_append h x hx⟩
  rw [hr]
  exact collecting_reset cfg r hlen

theorem received_keep {t' : State κ} (x : RxEvent κ × RxShown κ) (hrx : t'.rx = t.rx) (hc : clears x = false)
    (ha : accepted aes x = none) (hx : ∀ data m, x.2.outcome ≠ some (.completed data (some m))) :
    Received cfg aes (past ++ [x]) t' := by
  obtain ⟨before, since, rfl, hclear, hcol⟩ := h.collecting
  refine ⟨⟨before, since ++ [x], by simp, forall_snoc hclear hc, ?_⟩, messages_append h x hx⟩
  rw [hrx, filterMap_append]
  simpa [ha] using hcol
end

theorem dispatched_fields {m : Message} (h : transRxDispatcher cfg r = some m) :
    m.msgId = r.msgId ∧ m.cmd = r.cmd ∧ m.payload = r.buff.take r.bytesReceived := by
  unfold transRxDispatcher at h
  split at h
  · cases h
  · split at h
    · split at h <;> cases h
      exact ⟨rfl, rfl, rfl⟩
    · cases h
      exact ⟨rfl, rfl, rfl⟩

/-- A packet, whatever it is, keeps the invariant. -/
theorem received_packet (h : Received cfg aes past t) (buf : Bytes) (length : Nat) :
    Received cfg aes (past ++ [(.packet buf length, ⟨t.pAesCtx, (transportRx cfg aes buf length t).2⟩)])
      (transportRx cfg aes buf length t).1 := by
  obtain ⟨before, since, rfl, hclear, hcol⟩ := h.collecting
  rcases transportRx_cases cfg aes buf length t with heq | ⟨rx, src, code, heq, hbuff⟩ |
    ⟨rx, hframe, hbuff, hfit, data, hdata, heq⟩
  · rw [heq]
    exact received_keep h _ rfl rfl rfl (by simp)
  · rw [heq]
    exact received_clear h _ ⟨rx, rfl, by rw [hbuff, hcol.capacity]⟩ (by simp)
  · obtain ⟨hdec, hbytes, h15, hseq, hshort, hcons⟩ :=
      collecting_frame aes t.pAesCtx hcol hframe hfit
    rw [hdec] at hdata
    have hlen : (payloadOf aes t.pAesCtx buf).length ≤ Header.frameLen buf := decode_length_le _ _ _ _
    obtain ⟨hcap, htake⟩ := collecting_store aes t.pAesCtx buf hcol hbuff hbytes (by omega)
    rw [heq, hdata]
    by_cases hleft : (rx.store (payloadOf aes t.pAesCtx buf)).framesLeft = true
    · rw [if_pos hleft]
      refine ⟨⟨before, since ++ [_], append_assoc _ _ _, forall_snoc hclear rfl, ?_⟩,
        messages_append h _ (by simp)⟩
      have hne : rx.totalFrame ≠ rx.frameSeq := by
        simpa [Rx.framesLeft, Rx.store] using hleft
      have hlt : (since.filterMap (accepted aes)).length < rx.totalFrame.toNat := by
        have : rx.totalFrame.toNat ≠ rx.frameSeq.toNat := fun he => hne (UInt8.toNat_inj.mp he)
        omega
      rw [filterMap_append]
      exact
        { capacity := hcap
          room := by show rx.bytesReceived + _ ≤ _; omega
          bytes := htake
          idle := fun hnil => absurd hnil (by simp [accepted])
          short := by simpa [accepted, Rx.store] using hlt
          index := fun _ => ⟨by simp [accepted, Rx.store, hseq], h15⟩
          frames := hcons }
    · rw [if_neg hleft]
      have heqs : rx.totalFrame = rx.frameSeq := by
        simpa [Rx.framesLeft, Rx.store] using hleft
      refine ⟨⟨_, [], (append_nil _).symm, by simp, collecting_reset cfg _ hcap⟩, ?_⟩
      intro before' e ctx data' m after hpast
      obtain ⟨hbefore, hlast, rfl⟩ | ⟨rest, rfl, hrest⟩ := split_snoc hpast
      · -- the message of this very packet
        simp only [Prod.mk.injEq, RxShown.mk.injEq, Option.some.injEq, RxOutcome.completed.injEq] at hlast
        obtain ⟨rfl, rfl, rfl, hm⟩ := hlast
        obtain ⟨hmid, hmcmd, hmpay⟩ := dispatched_fields hm.symm
        refine ⟨before, since, hbefore, hclear, ?_⟩
        rw [filterMap_append]
        refine ⟨by rw [hmpay]; exact htake, rx.totalFrame, ?_, by rw [hmid, hmcmd]; exact hcons⟩
        simp [accepted, heqs, hseq]
      · exact h.messages before' e ctx data' m rest hrest

theorem received_step (cfg : Config) (aes : Aes κ) (past : List (RxEvent κ × RxShown κ)) (t : State κ)
    (e : RxEvent κ) (t' : State κ) (o : RxShown κ) (h : Received cfg aes past t)
    (hs : (rxMachine cfg aes).step t e = some (t', o)) : Received cfg aes (past ++ [(e, o)]) t' := by
  have hcap : t.rx.buff.length = cfg.maxPayloadSize := by
    obtain ⟨_, _, _, _, hcol⟩ := h.collecting
    exact hcol.capacity
  cases e with
  | packet buf length =>
    cases hs
    exact received_packet h buf length
  | timeout =>
    cases hs
    exact received_clear h _ ⟨t.rx, rfl, hcap⟩ (by simp)
  | reset =>
    cases hs
    exact received_clear h _ ⟨t.rx, rfl, hcap⟩ (by simp)
  | key key =>
    cases hs
    exact received_keep h _ rfl rfl rfl (by simp)

/-- **Reassembly is sound.** From an idle receiver, after any events: the bytes
received fit the buffer, and every message that was handed on is the concatenation
of the decoded payloads of packets accepted since the receiver was last cleared,
which carry its identifier and command, one frame count, and the frame numbers
from zero up to it. -/
theorem reassembly_sound (cfg : Config) (aes : Aes κ) (t t' : State κ) (events : List (RxEvent κ))
    (trace : List (RxEvent κ × RxShown κ)) (hidle : t.rx.Idle)
    (hbuff : t.rx.buff.length = cfg.maxPayloadSize)
    (hrun : (rxMachine cfg aes).run t events = some (t', trace)) :
    t'.rx.bytesReceived ≤ cfg.maxPayloadSize ∧
    ∀ before e ctx data m after,
      trace = before ++ (e, ⟨ctx, some (.completed data (some m))⟩) :: after →
      ∃ older since, before = older ++ since ∧ (∀ x ∈ since, clears x = false) ∧
        Reassembled m ((since ++ [(e, ⟨ctx, some (.completed data (some m))⟩)]).filterMap (accepted aes)) := by
  have hstart : Received cfg aes [] t := by
    refine ⟨⟨[], [], rfl, by simp, ?_⟩, by simp⟩
    exact
      { capacity := hbuff
        room := by rw [hidle.2.2]; exact Nat.zero_le _
        bytes := by simp [hidle.2.2]
        idle := fun _ => hidle
        short := Nat.zero_le _
        index := fun h => absurd rfl h
        frames := fun i hi => absurd hi (Nat.not_lt_zero i) }
  have hend := (rxMachine cfg aes).run_invariant_always _ (received_step cfg aes) hstart hrun
  obtain ⟨_, _, _, _, hcol⟩ := hend.collecting
  exact ⟨hcol.room, hend.messages⟩

def shortConfig : Config := ⟨false, true, 5, gattMtuSizeDefault, by decide, .inl rfl⟩

def plainAes : Aes Unit := ⟨fun _ x => x, fun _ x => x⟩

def twoFrames : List (RxEvent Unit) :=
  [.packet [0x01, 0x81, 0x11, 0x01, 6] 5, .packet [0x01, 0x81, 0x10, 0x01, 7] 5,
    .packet [0x01, 0x81, 0x11, 0x01, 8] 5]

theorem reassembly_sound_two_frames :
    ∃ (t : State Unit) (trace : List (RxEvent Unit × RxShown Unit)),
      (rxMachine shortConfig plainAes).run (init shortConfig) twoFrames = some (t, trace) ∧
      (trace.getLast?.bind fun x => x.2.outcome) =
        some (.completed [8] (some ⟨.event, 1, 0x81, 2, [7, 8]⟩)) ∧
      t.rx.bytesReceived ≤ shortConfig.maxPayloadSize :=
  ⟨_, _, rfl, by decide,
    (reassembly_sound shortConfig plainAes (init shortConfig) _ twoFrames _ ⟨rfl, rfl, rfl⟩ rfl rfl).1⟩

end Qumios.Ble.Transport
