import Qumios.Ble.Sending
import Qumios.Ble.Packet

/-! A message refused while another one is on its way.

`qm_ble_transport_tx` decides about the encryption of a message before it asks whether the
transport is busy. A call that is refused for its arguments leaves the transport as it was; one
that is refused as busy leaves its own encryption flag behind. The frames that are still to be
built read that flag: it stands in their headers, decides how the data is cut, and whether the
pieces are encrypted. So the message under way goes on undisturbed exactly if the refused one
would have been encrypted as it is (`rejected_tx_undisturbed`, `busy_disturbs`). -/
namespace Qumios.Ble.Transport

variable {κ : Type}

/-- What goes out as the peer confirms packets, so many at a time. -/
def goesOut (aes : Aes κ) (link : Link) (fuel : Nat) : List Nat → State κ → Option (List Output)
  | [], _ => some []
  | n :: confirmations, t =>
    match transportTxdone aes link fuel n t with
    | none => none
    | some (t', out) => (goesOut aes link fuel confirmations t').map (out ++ ·)

def flagged (encrypted : Bool) (t : State κ) : State κ := { t with tx := { t.tx with encrypted := encrypted } }

/-- Arguments `qm_ble_transport_tx` does not take: a length without data, or too great a length. -/
def Malformed (cfg : Config) (pData : Option Bytes) (length : Nat) : Prop :=
  pData = none ∧ length ≠ 0 ∨ length > cfg.maxPayloadSize

section Rejected
variable {cfg : Config} {aes : Aes κ} {link : Link} {fuel : Nat} {txType : TxType} {msgId cmd : UInt8}
  {pData : Option Bytes} {length : Nat} {t : State κ} {res : TxResult κ}

/-- The ways `qm_ble_transport_tx` fails. -/
theorem transportTx_rejected (h : transportTx cfg aes link fuel txType msgId cmd pData length t = some res)
    (herr : res.code ≠ .success) :
    Malformed cfg pData length ∧ (res.code = .enull ∨ res.code = .edatasize) ∧ res.state = t ∨
      ¬ Malformed cfg pData length ∧ res.code = .ebusy ∧ res.state = flagged (encrypts t cmd) t := by
  unfold transportTx at h
  split at h
  · next hnull =>
    cases h
    exact .inl ⟨.inl (by simpa using hnull), .inl rfl, rfl⟩
  next hnull =>
  split at h
  · next hsize =>
    cases h
    exact .inl ⟨.inr hsize, .inr rfl, rfl⟩
  next hsize =>
  split at h
  · cases h
    refine .inr ⟨?_, rfl, rfl⟩
    rintro (hnone | hlarge)
    · exact hnull (by simpa using hnone)
    · exact hsize hlarge
  split at h
  · cases h
  · cases h
    exact absurd rfl herr

/-- **A refused call does not disturb** the message on its way, if it is refused for its arguments or would have
been encrypted as that message is: whatever the peer confirms from then on, the same packets go out. -/
theorem rejected_tx_undisturbed (h : transportTx cfg aes link fuel txType msgId cmd pData length t = some res)
    (herr : res.code ≠ .success)
    (halike : Malformed cfg pData length ∨ encrypts t cmd = t.tx.encrypted) :
    nextPacket aes res.state = nextPacket aes t ∧ ∀ link' fuel' confirmations,
      goesOut aes link' fuel' confirmations res.state = goesOut aes link' fuel' confirmations t := by
  have hstate : res.state = t := by
    obtain ⟨-, -, hsame⟩ | ⟨htaken, -, hflagged⟩ := transportTx_rejected h herr
    · exact hsame
    · rw [hflagged, halike.resolve_left htaken]
      rfl
  rw [hstate]
  exact ⟨rfl, fun _ _ _ => rfl⟩

theorem isEnc_nextPacket (aes : Aes κ) (t : State κ) : Header.isEnc (nextPacket aes t) = t.tx.encrypted := by
  unfold nextPacket buildPacket
  split
  · exact isEnc_header t.tx _ _
  · exact isEnc_header t.tx _ _

theorem busy_disturbs (h : transportTx cfg aes link fuel txType msgId cmd pData length t = some res)
    (hbusy : res.code = .ebusy) (hother : encrypts t cmd ≠ t.tx.encrypted) :
    nextPacket aes res.state ≠ nextPacket aes t := by
  obtain ⟨-, hcode, -⟩ | ⟨-, -, hflagged⟩ := transportTx_rejected h (by rw [hbusy]; decide)
  · rw [hbusy] at hcode
    exact absurd hcode (by decide)
  · intro hnext
    have hflag := congrArg Header.isEnc hnext
    rw [isEnc_nextPacket, isEnc_nextPacket, hflagged] at hflag
    exact hother hflag

end Rejected

/-! ### A report during the authentication -/

/-- A device with a session key has sent the first frame of an `AUTH` message of 48 bytes. -/
def authUnderWay : Option (TxResult Unit) :=
  transportTx shortConfig plainAes reliable 9 .indication 0 Cmd.auth (some (List.replicate 48 7)) 48
    (updateKey () (init shortConfig))

theorem rejected_tx_undisturbed_auth : ∃ t res, authUnderWay = some t ∧ txBytesLeft t.state = 32 ∧
    transportTx shortConfig plainAes reliable 9 .indication 0 Cmd.auth (some [1]) 1 t.state = some res ∧
    res.code = .ebusy ∧ nextPacket plainAes res.state = nextPacket plainAes t.state ∧
    ∀ link' fuel' confirmations, goesOut plainAes link' fuel' confirmations res.state =
      goesOut plainAes link' fuel' confirmations t.state := by
  have hstart : authUnderWay.map (fun t => (txBytesLeft t.state, t.state.tx.encrypted)) = some (32, false) := by
    decide +kernel
  obtain ⟨t, ht, hvalues⟩ := Option.map_eq_some_iff.mp hstart
  obtain ⟨hleft, hplain⟩ := Prod.mk.inj hvalues
  have hcall : transportTx shortConfig plainAes reliable 9 .indication 0 Cmd.auth (some [1]) 1 t.state =
      some ⟨flagged (encrypts t.state Cmd.auth) t.state, .ebusy, []⟩ := by
    rw [transportTx, if_neg (by decide), if_neg (by decide), hleft]
    rfl
  refine ⟨t, _, ht, hleft, hcall, rfl, rejected_tx_undisturbed hcall (fun h => by cases h) (.inr ?_)⟩
  rw [hplain, encrypts]
  exact Bool.and_false _

def packetCount (out : List Output) : Nat := out.countP fun | .packet _ => true | _ => false

/-- A `REPORT` that is refused as busy turns the rest of the `AUTH` message into encrypted frames: the next one
has another header, and there are three more instead of two. -/
theorem busy_report_disturbs_auth :
    ∃ t res, Reachable shortConfig plainAes t ∧ txBytesLeft t = 32 ∧
      transportTx shortConfig plainAes reliable 9 .indication 0 Cmd.report (some [1]) 1 t = some res ∧
      res.code = .ebusy ∧ nextPacket plainAes res.state ≠ nextPacket plainAes t ∧
      (goesOut plainAes reliable 9 [1, 1, 1] t).map packetCount = some 2 ∧
      (goesOut plainAes reliable 9 [1, 1, 1] res.state).map packetCount = some 3 := by
  have hstart : authUnderWay.map (fun t => (txBytesLeft t.state, t.state.tx.encrypted, t.state.pKey,
      (goesOut plainAes reliable 9 [1, 1, 1] t.state).map packetCount,
      (goesOut plainAes reliable 9 [1, 1, 1] (flagged true t.state)).map packetCount)) =
      some (32, false, some (), some 2, some 3) := by
    decide +kernel
  obtain ⟨t, ht, hvalues⟩ := Option.map_eq_some_iff.mp hstart
  simp only [Prod.mk.injEq] at hvalues
  obtain ⟨hleft, hplain, hkey, htwo, hthree⟩ := hvalues
  have hencrypts : encrypts t.state Cmd.report = true := by
    rw [encrypts, hkey]
    rfl
  have hcall : transportTx shortConfig plainAes reliable 9 .indication 0 Cmd.report (some [1]) 1 t.state =
      some ⟨flagged (encrypts t.state Cmd.report) t.state, .ebusy, []⟩ := by
    rw [transportTx, if_neg (by decide), if_neg (by decide), hleft]
    rfl
  refine ⟨t.state, _, .tx _ _ _ _ _ _ _ (.key () .init) ht, hleft, hcall, rfl, ?_, htwo, ?_⟩
  · refine busy_disturbs hcall rfl ?_
    rw [hencrypts, hplain]
    decide
  · rw [hencrypts]
    exact hthree

end Qumios.Ble.Transport
