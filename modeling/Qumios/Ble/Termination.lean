import Qumios.Ble.Reassembly
import Qumios.Ble.Sending

/-! When a transmission returns.

`send_fragment` offers packets until one is refused; for notifications it then calls
`qm_ble_transport_txdone`, which calls `send_fragment` again as long as bytes are left. Nothing
else ends that recursion: a packet that goes out takes bytes with it, a packet that is refused
takes nothing. So a call returns when the link has taken as many packets as the message has
(`transmit_returns`), and not at all on a link that refuses for good (`refused_diverges`). -/
namespace Qumios.Ble.Transport

variable {κ : Type} {link : Link}

/-! ### Packets -/

/-- How many of the `n` attempts from the `k`-th on the link takes. -/
def taken (link : Link) : Nat → Nat → Nat
  | _, 0 => 0
  | k, n + 1 => (if link k then 1 else 0) + taken link (k + 1) n

theorem taken_add (link : Link) (k n m : Nat) : taken link k (n + m) = taken link k n + taken link (k + n) m := by
  induction n generalizing k with
  | zero => rw [taken, Nat.zero_add, Nat.zero_add, Nat.add_zero]
  | succ n ih =>
    rw [Nat.add_right_comm, taken, taken, ih, show k + (n + 1) = k + 1 + n by omega]
    exact (Nat.add_assoc ..).symm

theorem taken_mono {k n m : Nat} (h : n ≤ m) : taken link k n ≤ taken link k m := by
  obtain ⟨d, rfl⟩ := Nat.exists_eq_add_of_le h
  rw [taken_add]
  exact Nat.le_add_right ..

/-- The packets of `cut` bytes that `b` bytes are sent in. -/
def packetsFor (b cut : Nat) : Nat := (b + cut - 1) / cut

theorem packetsFor_zero {cut : Nat} (hcut : 0 < cut) : packetsFor 0 cut = 0 := Nat.div_eq_of_lt (by omega)

theorem packetsFor_sent {b cut : Nat} (hcut : 0 < cut) (hb : 0 < b) : packetsFor b cut = packetsFor (b - min b cut) cut + 1 := by
  rcases Nat.le_total b cut with hle | hge
  · have hone : (b + cut - 1) / cut = 1 := Nat.div_eq_of_lt_le (by omega) (by omega)
    rw [Nat.min_eq_left hle, Nat.sub_self, packetsFor_zero hcut, packetsFor, hone]
  · rw [Nat.min_eq_right hge, packetsFor, packetsFor, ← Nat.add_div_right _ hcut]
    congr 1
    omega

/-! ### A notification on its way -/

/-- A notification with `b` bytes left, in packets of `cut`. -/
structure Sending (t : State κ) (cut b : Nat) : Prop where
  active : t.tx.activeFunc = .notification
  bytes : t.tx.bytesSent + b = t.tx.len
  bound : t.tx.len ≤ 4800
  cut : payloadMaxLen t = cut

variable {t t' : State κ} {cut b : Nat}

namespace Sending

section
variable (h : Sending t cut b)
include h

theorem txBytesLeft : txBytesLeft t = b := by
  have := h.bytes
  have := h.bound
  simp only [Transport.txBytesLeft]
  omega

theorem confirm (n : Nat) : Sending (confirm n t) cut b := ⟨h.active, h.bytes, h.bound, h.cut⟩

theorem offered : Sending (offered t) cut b := ⟨h.active, h.bytes, h.bound, h.cut⟩

theorem sent : Sending (packetSent (min (Transport.txBytesLeft t) (payloadMaxLen t)) (Transport.offered t)) cut
    (b - min b cut) := by
  have hbytes := h.bytes
  have hbound := h.bound
  rw [h.txBytesLeft, h.cut]
  refine ⟨h.active, ?_, h.bound, h.cut⟩
  show (t.tx.bytesSent + min b cut) % 65536 + (b - min b cut) = t.tx.len
  omega

end

/-- The loop of `send_fragment`, when it has ended: the link has taken the packets that are no longer to be sent. -/
theorem sendLoop_some {aes : Aes κ} (h : Sending t cut b) (hb : 0 < b) {fuel : Nat} {out : List Output} {n : Nat}
    (hloop : sendLoop aes link fuel t = some (t', out, n)) :
    ∃ b' m, Sending t' cut b' ∧ t'.tx.attempts = t.tx.attempts + m ∧ (cut = 0 → b' = b) ∧
      (0 < cut → packetsFor b cut = packetsFor b' cut + taken link t.tx.attempts m) := by
  induction fuel generalizing t b out n with
  | zero => cases hloop
  | succ fuel ih =>
    rw [Transport.sendLoop] at hloop
    cases hlink : link t.tx.attempts with
    | false =>
      simp only [hlink, Bool.not_false, if_true, Option.some.injEq, Prod.mk.injEq] at hloop
      obtain ⟨rfl, -, -⟩ := hloop
      exact ⟨b, 1, h.offered, rfl, fun _ => rfl, fun _ => by simp [taken, hlink]⟩
    | true =>
      have hnext := h.sent
      simp only [hlink, h.active, reduceCtorEq, decide_false, Bool.false_or, decide_eq_true_eq, hnext.txBytesLeft,
        Bool.not_true, Bool.false_eq_true, if_false] at hloop
      have hzero (hcut : cut = 0) : b - min b cut = b := by omega
      split at hloop
      · cases hloop
        refine ⟨_, 1, hnext, rfl, hzero, fun hcut => ?_⟩
        rw [packetsFor_sent hcut hb, taken, hlink]
        rfl
      · next hmore =>
        split at hloop
        · cases hloop
        · next t₁ out₁ n₁ hrest =>
          cases hloop
          obtain ⟨b', m, hsending, hattempts, hsame, htaken⟩ := ih hnext (by omega) hrest
          have hattempts : t'.tx.attempts = t.tx.attempts + 1 + m := hattempts
          refine ⟨b', m + 1, hsending, by omega, fun hcut => (hsame hcut).trans (hzero hcut), fun hcut => ?_⟩
          have htaken : packetsFor (b - min b cut) cut = packetsFor b' cut + taken link (t.tx.attempts + 1) m := htaken hcut
          rw [packetsFor_sent hcut hb, htaken, taken, hlink, if_pos rfl]
          omega

/-- The loop comes to its end with fewer attempts to come, if the link takes the packets in these. -/
theorem sendLoop (aes : Aes κ) (h : Sending t cut b) (hb : 0 < b) (hcut : 0 < cut) {m fuel : Nat}
    (htaken : packetsFor b cut ≤ taken link t.tx.attempts m) (hfuel : m ≤ fuel) :
    ∃ t' out n b' m', sendLoop aes link fuel t = some (t', out, n) ∧ Sending t' cut b' ∧
      packetsFor b' cut ≤ taken link t'.tx.attempts m' ∧ m' < m ∧ t'.tx.attempts + m' = t.tx.attempts + m := by
  induction fuel generalizing t b m with
  | zero =>
    obtain rfl : m = 0 := by omega
    rw [packetsFor_sent hcut hb, taken] at htaken
    omega
  | succ fuel ih =>
    obtain ⟨m, rfl⟩ : ∃ m', m = m' + 1 := by
      refine Nat.exists_eq_succ_of_ne_zero fun hm => ?_
      rw [packetsFor_sent hcut hb, hm, taken] at htaken
      omega
    rw [taken] at htaken
    rw [Transport.sendLoop]
    cases hlink : link t.tx.attempts with
    | false =>
      simp only [hlink, Bool.false_eq_true, if_false, Nat.zero_add] at htaken
      exact ⟨_, _, _, b, m, if_pos rfl, h.offered, htaken, Nat.lt_succ_self m, Nat.succ_add_eq_add_succ ..⟩
    | true =>
      have hnext := h.sent
      rw [packetsFor_sent hcut hb, hlink, if_pos rfl, Nat.add_comm 1] at htaken
      have htaken : packetsFor (b - min b cut) cut ≤ taken link (t.tx.attempts + 1) m := Nat.le_of_succ_le_succ htaken
      simp only [h.active, reduceCtorEq, decide_false, Bool.false_or, decide_eq_true_eq, hnext.txBytesLeft]
      by_cases hdone : b - min b cut = 0
      · rw [if_pos hdone]
        exact ⟨_, _, _, _, m, rfl, hnext, htaken, Nat.lt_succ_self m, Nat.succ_add_eq_add_succ ..⟩
      · obtain ⟨t', out, n, b', m', hloop, hsending, hrest, hless, hattempts⟩ :=
          ih hnext (by omega) htaken (by omega)
        have hattempts : t'.tx.attempts + m' = t.tx.attempts + 1 + m := hattempts
        rw [if_neg hdone, hloop]
        exact ⟨_, _, _, b', m', rfl, hsending, hrest, by omega, by omega⟩

end Sending

/-! ### Returning -/

theorem txdone_returns (aes : Aes κ) (link : Link) (h : txBytesLeft t = 0) (n fuel : Nat) :
    ∃ t' out, transportTxdone aes link (fuel + 1) n t = some (t', out) ∧ t'.tx.attempts = t.tx.attempts := by
  have hleft : ¬ txBytesLeft (confirm n t) ≠ 0 := not_not.mpr ((txBytesLeft_confirm n t).trans h)
  have hattempts := attempts_confirm n t
  rw [transportTxdone, if_neg hleft]
  repeat' split
  all_goals exact ⟨_, _, rfl, hattempts⟩

/-- **A notification with bytes to send returns** if the link takes its packets in the next `m` attempts: these are the
measure, around the whole cycle of `send_fragment` and `qm_ble_transport_txdone`. -/
theorem Sending.sendFragment (aes : Aes κ) (h : Sending t cut b) (hb : 0 < b) (hcut : 0 < cut) {m fuel : Nat}
    (htaken : packetsFor b cut ≤ taken link t.tx.attempts m) (hfuel : 2 * m + 2 ≤ fuel) :
    ∃ t' out, sendFragment aes link fuel t = some (t', out) ∧ t'.tx.attempts ≤ t.tx.attempts + m := by
  induction m using Nat.strongRecOn generalizing t b fuel with
  | _ m ih =>
    obtain ⟨fuel, rfl⟩ : ∃ f, fuel = f + 2 := ⟨fuel - 2, by omega⟩
    obtain ⟨t', out, n, b', m', hloop, hsending, hrest, hless, hattempts⟩ :=
      h.sendLoop aes hb hcut htaken (show m ≤ fuel + 1 by omega)
    rw [Transport.sendFragment, hloop]
    dsimp only
    rw [if_pos hsending.active]
    by_cases hdone : b' = 0
    · obtain ⟨t'', out', htxdone, hsame⟩ := txdone_returns aes link (hsending.txBytesLeft.trans hdone) n fuel
      rw [htxdone]
      exact ⟨t'', _, rfl, by omega⟩
    · have hleft : Transport.txBytesLeft (Transport.confirm n t') ≠ 0 := by
        rw [(hsending.confirm n).txBytesLeft]
        exact hdone
      obtain ⟨t'', out', hagain, hmore⟩ := ih m' hless (hsending.confirm n) (by omega)
        (by rw [attempts_confirm]; exact hrest) (show 2 * m' + 2 ≤ fuel by omega)
      rw [attempts_confirm] at hmore
      rw [transportTxdone, if_pos hleft, hagain]
      exact ⟨t'', _, rfl, by omega⟩

/-- **And only then**: when it has returned the link has taken the packets of the message. -/
theorem Sending.sendFragment_some {aes : Aes κ} (h : Sending t cut b) (hb : 0 < b) {fuel : Nat} {out : List Output}
    (hcall : Transport.sendFragment aes link fuel t = some (t', out)) :
    0 < cut ∧ ∃ m, t'.tx.attempts = t.tx.attempts + m ∧ packetsFor b cut = taken link t.tx.attempts m := by
  induction fuel using Nat.strongRecOn generalizing t b out with
  | _ fuel ih =>
    cases fuel with
    | zero => cases hcall
    | succ fuel =>
      rw [Transport.sendFragment] at hcall
      split at hcall
      · cases hcall
      next t₁ out₁ n hloop =>
      obtain ⟨b₁, m₁, hsending, hattempts, hsame, htaken⟩ := h.sendLoop_some hb hloop
      rw [if_pos hsending.active] at hcall
      split at hcall
      · cases hcall
      next t₂ out₂ htxdone =>
      cases hcall
      cases fuel with
      | zero => cases htxdone
      | succ fuel =>
        by_cases hdone : b₁ = 0
        · obtain ⟨t₃, out₃, hreturns, hkept⟩ := txdone_returns aes link (hsending.txBytesLeft.trans hdone) n fuel
          cases hreturns.symm.trans htxdone
          have hcut : 0 < cut := Nat.pos_of_ne_zero fun hzero => by
            have := hsame hzero
            omega
          have hall := htaken hcut
          rw [hdone, packetsFor_zero hcut, Nat.zero_add] at hall
          exact ⟨hcut, m₁, hkept.trans hattempts, hall⟩
        · have hleft : Transport.txBytesLeft (Transport.confirm n t₁) ≠ 0 := by
            rw [(hsending.confirm n).txBytesLeft]
            exact hdone
          rw [transportTxdone, if_pos hleft] at htxdone
          obtain ⟨hcut, m₂, hmore, hrest⟩ := ih fuel (by omega) (hsending.confirm n) (by omega) htxdone
          rw [attempts_confirm, hattempts] at hmore hrest
          refine ⟨hcut, m₁ + m₂, by omega, ?_⟩
          rw [htaken hcut, hrest, taken_add, Nat.add_comm]

/-- `send_fragment` returns, in at most `bound` attempts. -/
def SendsWithin (aes : Aes κ) (link : Link) (t : State κ) (bound : Nat) : Prop :=
  ∃ fuel t' out, sendFragment aes link fuel t = some (t', out) ∧ t'.tx.attempts ≤ t.tx.attempts + bound

section
variable (aes : Aes κ) (link : Link) (h : t.tx.activeFunc = .indication ∨
  txBytesLeft t = 0 ∧ txBytesLeft (packetSent (min (txBytesLeft t) (payloadMaxLen t)) (offered t)) = 0)
include h

/-- Where the loop of `send_fragment` is left after its first packet, sent or not, the call makes
that one attempt. -/
theorem sendFragment_once (fuel : Nat) :
    ∃ t' out, sendFragment aes link (fuel + 2) t = some (t', out) ∧ t'.tx.attempts = t.tx.attempts + 1 := by
  have hloop : ∃ t' out n, sendLoop aes link (fuel + 1) t = some (t', out, n) ∧
      t'.tx.attempts = t.tx.attempts + 1 ∧ t'.tx.activeFunc = t.tx.activeFunc ∧
      (t.tx.activeFunc = .indication ∨ txBytesLeft t' = 0) := by
    rw [sendLoop]
    cases link t.tx.attempts with
    | false => exact ⟨_, _, _, if_pos rfl, rfl, rfl, h.imp_right And.left⟩
    | true =>
      refine ⟨_, _, _, (if_neg (by simp)).trans (if_pos ?_), rfl, rfl, h.imp_right And.right⟩
      rw [Bool.or_eq_true, decide_eq_true_eq, decide_eq_true_eq]
      exact h.imp_right And.right
  obtain ⟨t', out, n, hloop, hattempts, hactive, hend⟩ := hloop
  rw [sendFragment, hloop]
  dsimp only
  by_cases hn : t'.tx.activeFunc = .notification
  · have hleft : txBytesLeft t' = 0 := hend.resolve_left fun hi => by
      rw [hactive, hi] at hn
      cases hn
    obtain ⟨t'', out', htxdone, hsame⟩ := txdone_returns aes link hleft n fuel
    rw [if_pos hn, htxdone]
    exact ⟨t'', _, rfl, hsame.trans hattempts⟩
  · rw [if_neg hn]
    exact ⟨t', out, rfl, hattempts⟩

theorem sendsWithin_once (bound : Nat) : SendsWithin aes link t bound ↔ 1 ≤ bound := by
  constructor
  · rintro ⟨_ | _ | fuel, t', out, hsend, hattempts⟩
    · cases hsend
    · cases hsend
    · obtain ⟨t₁, out₁, honce, hmade⟩ := sendFragment_once aes link h fuel
      cases honce.symm.trans hsend
      omega
  · intro hbound
    obtain ⟨t', out, hsend, hmade⟩ := sendFragment_once aes link h 0
    exact ⟨2, t', out, hsend, by omega⟩

end

theorem Sending.sendsWithin (aes : Aes κ) (h : Sending t cut b) (hb : 0 < b) (bound : Nat) :
    SendsWithin aes link t bound ↔ 0 < cut ∧ packetsFor b cut ≤ taken link t.tx.attempts bound := by
  constructor
  · rintro ⟨fuel, t', out, hsend, hattempts⟩
    obtain ⟨hcut, m, hmade, htaken⟩ := h.sendFragment_some hb hsend
    exact ⟨hcut, htaken.le.trans (taken_mono (by omega))⟩
  · rintro ⟨hcut, htaken⟩
    obtain ⟨t', out, hsend, hattempts⟩ := h.sendFragment aes hb hcut htaken (Nat.le_refl _)
    exact ⟨_, t', out, hsend, hattempts⟩

/-- What is asked of the link: nothing for an indication and an empty message, which make one attempt; for a
notification, to take its packets in the attempts that are allowed. -/
def Carries (link : Link) (txType : TxType) (length cut k bound : Nat) : Prop :=
  if length = 0 ∨ txType = .indication then 1 ≤ bound else 0 < cut ∧ packetsFor length cut ≤ taken link k bound

/-- **When a transmission returns**: a message that is accepted is sent in no more than `bound` attempts exactly if the
link carries it in these. -/
theorem transmit_returns (cfg : Config) (aes : Aes κ) (link : Link) (txType : TxType) (msgId cmd : UInt8)
    (pData : Option Bytes) (length : Nat) (t : State κ) (hdata : pData.isSome ∨ length = 0)
    (hlen : length ≤ cfg.maxPayloadSize) (hidle : txBytesLeft t = 0 ∧ t.tx.pktReq = t.tx.pktCfm) (bound : Nat) :
    (∃ fuel res, transportTx cfg aes link fuel txType msgId cmd pData length t = some res ∧
      res.state.tx.attempts ≤ t.tx.attempts + bound) ↔
    Carries link txType length (payloadMaxLen (startTx cfg txType msgId cmd pData length t)) t.tx.attempts bound := by
  have hthere : ¬ (pData.isNone && length ≠ 0) = true := by
    rcases hdata with h | h
    · simp [Option.isSome_iff_ne_none.mp h]
    · simp [h]
  have hready : ¬ (txBytesLeft t ≠ 0 || t.tx.pktReq ≠ t.tx.pktCfm) = true := by simp [hidle]
  refine Iff.trans (b := SendsWithin aes link (startTx cfg txType msgId cmd pData length t) bound) ⟨?_, ?_⟩ ?_
  · rintro ⟨fuel, res, hcall, hattempts⟩
    rw [transportTx_accepted hthere (Nat.not_lt.mpr hlen) hready] at hcall
    obtain ⟨⟨t', out⟩, hsend, rfl⟩ := Option.map_eq_some_iff.mp hcall
    exact ⟨fuel, t', out, hsend, hattempts⟩
  · rintro ⟨fuel, t', out, hsend, hattempts⟩
    exact ⟨fuel, _, transportTx_of_send hthere (Nat.not_lt.mpr hlen) hready hsend, hattempts⟩
  unfold Carries
  split
  next hone =>
    refine sendsWithin_once aes link (hone.symm.imp_right ?_) bound
    rintro rfl
    exact ⟨by simp [txBytesLeft, startTx], by simp [txBytesLeft, packetSent, offered, startTx]⟩
  next hone =>
    obtain ⟨hne, hn⟩ := not_or.mp hone
    have hactive : txType = .notification := by
      cases txType
      · rfl
      · exact absurd rfl hn
    have hsending : Sending (startTx cfg txType msgId cmd pData length t)
        (payloadMaxLen (startTx cfg txType msgId cmd pData length t)) length :=
      ⟨hactive, Nat.zero_add _, hlen.trans cfg.maxPayloadSize_le, rfl⟩
    exact hsending.sendsWithin aes (Nat.pos_of_ne_zero hne) bound

/-- Three bytes on a link that refuses the first of three packets. -/
theorem transmit_returns_after_refusal :
    ∃ fuel res, transportTx shortConfig plainAes (fun k => k != 0) fuel .notification 1 Cmd.report (some [1, 2, 3]) 3
        (init shortConfig) = some res ∧
      res.state.tx.attempts ≤ (init shortConfig : State Unit).tx.attempts + 3 :=
  (transmit_returns shortConfig plainAes (fun k => k != 0) .notification 1 Cmd.report (some [1, 2, 3]) 3
    (init shortConfig) (.inl rfl) (by decide) ⟨by decide, rfl⟩ 3).mpr (by unfold Carries; decide)

/-! ### Not returning -/

def refusing : Link := fun _ => false

/-- **On a link that refuses for good**, a notification with bytes left never returns, neither from
`send_fragment` nor from `qm_ble_transport_txdone`. -/
theorem refused_diverges (aes : Aes κ) (hn : t.tx.activeFunc = .notification) (hleft : txBytesLeft t ≠ 0)
    (fuel : Nat) : sendFragment aes refusing fuel t = none ∧ transportTxdone aes refusing fuel 0 t = none := by
  induction fuel generalizing t with
  | zero => exact ⟨rfl, rfl⟩
  | succ fuel ih =>
    constructor
    · cases fuel with
      | zero => rfl
      | succ fuel =>
        have hloop : sendLoop aes refusing (fuel + 1) t = some (offered t, [], 0) := by
          rw [sendLoop]
          exact if_pos rfl
        rw [sendFragment, hloop]
        dsimp only
        have hagain := (ih (t := offered t) hn hleft).2
        rw [if_pos (show (offered t).tx.activeFunc = .notification from hn), hagain]
    · rw [transportTxdone, if_pos (show txBytesLeft (confirm 0 t) ≠ 0 from hleft)]
      exact (ih (t := confirm 0 t) hn hleft).1

/-- One byte, posted as a notification with nobody connected: every attempt is refused and the call
does not return. -/
theorem refused_notification_never_returns :
    ∃ (cfg : Config) (aes : Aes Unit) (t : State Unit), Reachable cfg aes t ∧ isValidTxCommand Cmd.report = true ∧
      1 ≤ cfg.maxPayloadSize ∧ txBytesLeft t = 0 ∧ t.tx.pktReq = t.tx.pktCfm ∧
      ∀ fuel, transportTx cfg aes refusing fuel .notification 1 Cmd.report (some [7]) 1 t = none := by
  refine ⟨shortConfig, plainAes, init shortConfig, .init, by decide, by decide, by decide, rfl, fun fuel => ?_⟩
  have hstart := (refused_diverges plainAes
    (t := startTx shortConfig .notification 1 Cmd.report (some [7]) 1 (init shortConfig)) rfl (by decide) fuel).1
  rw [transportTx, if_neg (by decide), if_neg (by decide), if_neg (by decide), hstart]

end Qumios.Ble.Transport
