import Qumios.Ble.Reassembly
import Qumios.Ble.Session

/-! The session key and its cipher context.

A key without a context is what a lost connection leaves behind an authenticated
session: `qm_ble_transport_reset` destroys the context and keeps the pointer to the key,
and both directions look only at the pointer to tell whether they may use the cipher
(`key_outlives_context`). As long as no reset meets a key and every context gets its
memory, the two come and go together (`key_has_context`): every context the cipher is
called with is live, so that nothing in such a run depends on what the cipher does
with a null pointer. -/
namespace Qumios.Ble.Session
open Run Transport

/-! ### Live contexts -/

/-- A key has its context, and only with a key is a message marked as encrypted. -/
structure Live (t : Transport.State Bytes) : Prop where
  key : t.pKey.isSome = true → t.pAesCtx.isSome = true
  flag : t.tx.encrypted = true → t.pKey.isSome = true

variable {t : Transport.State Bytes}

variable {t' : Transport.State Bytes} {cfg : Config}

theorem Live.of_eq (h : Live t) (hkey : t'.pKey = t.pKey) (hctx : t'.pAesCtx = t.pAesCtx)
    (hflag : t'.tx.encrypted = t.tx.encrypted) : Live t' where
  key := by
    rw [hkey, hctx]
    exact h.key
  flag := by
    rw [hkey, hflag]
    exact h.flag

theorem Live.of_same (h : Live t) (hsame : SameSetup t t') : Live t' :=
  h.of_eq hsame.pKey hsame.pAesCtx hsame.encrypted

theorem Live.updateMtu (h : Live t) (mtu : Nat) : Live (updateMtu mtu t) :=
  h.of_eq rfl rfl rfl

theorem Live.context (h : Live t) (henc : t.tx.encrypted = true) : t.pAesCtx.isSome = true :=
  h.key (h.flag henc)

theorem Live.marked (h : Live t) {cmd : UInt8} (hkey : t'.pKey = t.pKey) (hctx : t'.pAesCtx = t.pAesCtx)
    (hflag : t'.tx.encrypted = encrypts t cmd) : Live t' where
  key := by
    rw [hkey, hctx]
    exact h.key
  flag := by
    rw [hkey, hflag, encrypts, Bool.and_eq_true]
    exact And.left

theorem Live.updateKey {env : Env} (key : Bytes) (hgranted : env.ctxGranted = true) :
    Live (transportUpdateKey env key t) := by
  rw [transportUpdateKey, if_pos hgranted]
  exact ⟨fun _ => rfl, fun _ => rfl⟩

theorem Live.reset (h : Live t) (hkey : cfg.enableAuth = true → t.pKey = none) : Live (transportReset cfg t) := by
  unfold transportReset
  split
  · next hauth =>
    have hnone : (Transport.reset t).pKey = none := hkey hauth
    refine ⟨fun hsome => ?_, h.flag⟩
    rw [hnone] at hsome
    cases hsome
  · exact h.of_eq rfl rfl rfl

def AllLive (ciphers : List (Option Bytes)) : Prop := ∀ ctx ∈ ciphers, ctx.isSome = true

theorem AllLive.nil : AllLive [] := List.forall_mem_nil _

theorem AllLive.append {a b : List (Option Bytes)} (ha : AllLive a) (hb : AllLive b) : AllLive (a ++ b) :=
  List.forall_mem_append.mpr ⟨ha, hb⟩

theorem AllLive.cons {ctx : Option Bytes} {rest : List (Option Bytes)} (hctx : ctx.isSome = true)
    (hrest : AllLive rest) : AllLive (ctx :: rest) :=
  List.forall_mem_cons.mpr ⟨hctx, hrest⟩

theorem Live.encryptions (h : Live t) (t' : Transport.State Bytes) : AllLive (encryptions t t') := by
  unfold Session.encryptions
  split
  · next hmarked =>
    intro ctx hctx
    rw [List.eq_of_mem_replicate hctx]
    exact h.context (Bool.and_eq_true _ _ ▸ hmarked).1
  · exact AllLive.nil

theorem keyed_of_rxCheck {keyed : Bool} {buf : Bytes} {length : Nat} (henc : Header.isEnc buf = true)
    (hcheck : rxCheck keyed buf length = none) : keyed = true := by
  by_contra hkey
  rw [Bool.not_eq_true] at hkey
  simp only [rxCheck, henc, hkey, Bool.true_and, Bool.not_false] at hcheck
  split at hcheck
  · cases hcheck
  · simp at hcheck

theorem Live.decryptions (h : Live t) (cfg : Config) (buf : Bytes) (length : Nat) :
    AllLive (decryptions cfg buf length t) := by
  unfold Session.decryptions
  dsimp only
  repeat' split
  any_goals exact AllLive.nil
  next hcheck hdata =>
    simp only [Bool.and_eq_true] at hdata
    exact AllLive.cons (h.key (keyed_of_rxCheck hdata.1.2 hcheck)) AllLive.nil

/-! ### One call -/

def Orderly (cfg : Config) (s : State) (e : Event) : Prop :=
  match e.call with
  | .disconnected | .reset => cfg.enableAuth = true → s.transport.pKey = none
  | .rx _ _ | .updateKey _ => e.env.ctxGranted = true
  | _ => True

instance (cfg : Config) (s : State) : (e : Event) → Decidable (Orderly cfg s e)
  | ⟨.disconnected, _⟩ | ⟨.reset, _⟩ =>
    inferInstanceAs (Decidable (cfg.enableAuth = true → s.transport.pKey = none))
  | ⟨.rx _ _, env⟩ | ⟨.updateKey _, env⟩ => inferInstanceAs (Decidable (env.ctxGranted = true))
  | ⟨.advertise _, _⟩ | ⟨.connected, _⟩ | ⟨.icCcc _, _⟩ | ⟨.ncCcc _, _⟩ | ⟨.tx .., _⟩ | ⟨.indicationDone _, _⟩
  | ⟨.txTimeout, _⟩ | ⟨.rxTimeout, _⟩ | ⟨.authTimeout, _⟩ => isTrue trivial

section Calls
variable {cfg : Config} {hal : Hal} {dev : Device} {env : Env} {s s' : State} {out : Output}

theorem startTx_live (cfg : Config) (h : Live t) (txType : TxType) (msgId cmd : UInt8) (pData : Option Bytes)
    (length : Nat) : Live (startTx cfg txType msgId cmd pData length t) :=
  h.marked rfl rfl rfl

variable {txType : TxType} {msgId cmd : UInt8} {pData : Option Bytes} {length : Nat}

theorem transportTx_live {aes : Aes Bytes} {link : Link} {fuel : Nat} {r : TxResult Bytes} (h : Live t)
    (htx : transportTx cfg aes link fuel txType msgId cmd pData length t = some r) : Live r.state := by
  unfold transportTx at htx
  repeat' split at htx
  all_goals cases htx
  · exact h
  · exact h
  · exact h.marked rfl rfl rfl
  · next hsend => exact (startTx_live cfg h ..).of_same ((send_same _).1 hsend)

theorem transmit_live {code : RetCode} (h : Live s.transport)
    (htx : transmit cfg hal env txType msgId cmd pData length s = some (s', code, out)) :
    Live s'.transport ∧ AllLive out.ciphers := by
  unfold transmit at htx
  split at htx
  · cases htx
  · next hsend =>
    cases htx
    exact ⟨transportTx_live h hsend, (startTx_live cfg h ..).encryptions _⟩

theorem updateAesKey_live (hal : Hal) (hgranted : env.ctxGranted = true) (s : State) :
    Live (updateAesKey hal env s).transport ∧ (updateAesKey hal env s).transport.pAesCtx.isSome = true := by
  refine ⟨Live.updateKey _ hgranted, ?_⟩
  rw [updateAesKey, transportUpdateKey, if_pos hgranted]
  rfl

theorem answerRand_live {data : Bytes} (hgranted : env.ctxGranted = true)
    (hans : answerRand cfg hal dev env data s = some (s', out)) : Live s'.transport ∧ AllLive out.ciphers := by
  unfold answerRand at hans
  dsimp only at hans
  obtain ⟨hkey, hctx⟩ := updateAesKey_live hal hgranted
    { s with auth := { s.auth with state := .verify, ikm := ikmOf dev s.auth data } }
  split at hans
  · cases hans
  · next hsend =>
    obtain ⟨hlive, hciphers⟩ := transmit_live hkey hsend
    cases hans
    refine ⟨?_, hciphers.cons hctx⟩
    split
    · exact hlive
    · exact hlive

section
variable (h : Live s.transport)
include h

theorem authRxCommand_live {data : Bytes} (hgranted : env.ctxGranted = true)
    (hrx : authRxCommand cfg hal dev env cmd data s = some (s', out)) : Live s'.transport ∧ AllLive out.ciphers := by
  unfold authRxCommand at hrx
  repeat' split at hrx
  case isTrue.isTrue => exact answerRand_live hgranted hrx
  all_goals
    cases hrx
    exact ⟨h, AllLive.nil⟩

theorem receive_live {buf : Bytes} (hgranted : env.ctxGranted = true)
    (hrx : receive cfg hal dev env buf length s = some (s', out)) : Live s'.transport ∧ AllLive out.ciphers := by
  have hdec := h.decryptions cfg buf length
  have hlive := h.of_same (transportRx_same cfg hal.aes buf length s.transport)
  unfold receive at hrx
  dsimp only at hrx
  split at hrx
  · cases hrx
    exact ⟨hlive, hdec⟩
  · split at hrx
    · cases hrx
      exact ⟨hlive, hdec⟩
    · split at hrx
      · cases hrx
      · next hauth =>
        obtain ⟨hend, hciphers⟩ := authRxCommand_live hlive hgranted hauth
        cases hrx
        exact ⟨hend, hdec.append hciphers⟩
  · cases hrx
    exact ⟨hlive, hdec⟩

theorem indicationDone_live {res : RetCode} (hdone : indicationDone hal env res s = some (s', out)) :
    Live s'.transport ∧ AllLive out.ciphers := by
  unfold indicationDone at hdone
  split at hdone
  · cases hdone
    exact ⟨h, AllLive.nil⟩
  · split at hdone
    · cases hdone
    · next hsend =>
      cases hdone
      exact ⟨h.of_same ((send_same _).2 hsend), h.encryptions _⟩

theorem connected_live : Live (connected cfg env s).1.transport ∧ AllLive (connected cfg env s).2.ciphers := by
  unfold connected
  dsimp only
  repeat' split
  all_goals exact ⟨h, AllLive.nil⟩

theorem serviceEnabled_live :
    Live (serviceEnabled cfg env s).1.transport ∧ AllLive (serviceEnabled cfg env s).2.ciphers := by
  have hmtu := h.updateMtu env.mtu
  unfold serviceEnabled
  cases cfg.longMtu with
  | true =>
    rw [if_pos rfl]
    dsimp only
    repeat' split
    · exact ⟨hmtu, AllLive.nil⟩
    · exact ⟨hmtu, AllLive.nil⟩
    · exact ⟨h, AllLive.nil⟩
  | false =>
    rw [if_neg Bool.false_ne_true]
    dsimp only
    repeat' split
    all_goals exact ⟨h, AllLive.nil⟩
end

theorem cccHandler_live (cfg : Config) (env : Env) (h : Live s.transport) (val : CccValue) :
    (Live (icCccHandler cfg env val s).1.transport ∧ AllLive (icCccHandler cfg env val s).2.ciphers) ∧
    (Live (ncCccHandler cfg env val s).1.transport ∧ AllLive (ncCccHandler cfg env val s).2.ciphers) := by
  unfold icCccHandler ncCccHandler
  constructor
  · dsimp only
    split
    · exact serviceEnabled_live h
    · exact ⟨h, AllLive.nil⟩
  · dsimp only
    split
    · exact serviceEnabled_live h
    · exact ⟨h, AllLive.nil⟩

theorem coreReset_transport (s : State) : (coreReset cfg s).transport = transportReset cfg s.transport := by
  unfold coreReset
  split <;> rfl

end Calls

/-- One call keeps a context with every key and hands only live contexts to the cipher. -/
theorem step_live {hal : Hal} {dev : Device} {s s' : State} {e : Event} {out : Output} (h : Live s.transport)
    (ho : Orderly cfg s e) (hs : step cfg hal dev s e = some (s', out)) :
    Live s'.transport ∧ AllLive out.ciphers := by
  obtain ⟨call, env⟩ := e
  cases call with
  | advertise secType =>
    cases hs
    refine ⟨?_, AllLive.nil⟩
    split <;> exact h
  | connected =>
    cases hs
    exact connected_live h
  | disconnected =>
    cases hs
    refine ⟨?_, AllLive.nil⟩
    rw [coreReset_transport]
    exact h.reset ho
  | icCcc val =>
    have hkept := (cccHandler_live cfg env h val).1
    rwa [show icCccHandler cfg env val s = (s', out) from Option.some.inj hs] at hkept
  | ncCcc val =>
    have hkept := (cccHandler_live cfg env h val).2
    rwa [show ncCccHandler cfg env val s = (s', out) from Option.some.inj hs] at hkept
  | rx buf length => exact receive_live h ho hs
  | tx txType msgId cmd pData length =>
    simp only [step] at hs
    split at hs
    · cases hs
    · next hsend =>
      cases hs
      exact transmit_live h hsend
  | indicationDone res => exact indicationDone_live h hs
  | txTimeout =>
    cases hs
    exact ⟨h.of_same (resetTx_same _), AllLive.nil⟩
  | rxTimeout =>
    cases hs
    exact ⟨h.of_eq rfl rfl rfl, AllLive.nil⟩
  | authTimeout =>
    cases hs
    exact ⟨h, AllLive.nil⟩
  | updateKey key =>
    cases hs
    exact ⟨Live.updateKey key ho, AllLive.nil⟩
  | reset =>
    cases hs
    exact ⟨h.reset ho, AllLive.nil⟩

/-! ### What a null context would do -/

/-- Two ciphers that differ at most on a null context. -/
structure Agree {κ : Type} (aes aes' : Aes κ) : Prop where
  encrypt : ∀ key data, aes'.encrypt (some key) data = aes.encrypt (some key) data
  decrypt : ∀ key data, aes'.decrypt (some key) data = aes.decrypt (some key) data

section Agree
variable {κ : Type} {aes aes' : Aes κ}

variable {t : Transport.State κ}

theorem context_of_same {t' : Transport.State κ} (hsame : SameSetup t t')
    (h : t.tx.encrypted = true → t.pAesCtx.isSome = true) : t'.tx.encrypted = true → t'.pAesCtx.isSome = true := by
  rw [hsame.encrypted, hsame.pAesCtx]
  exact h

section
variable (ha : Agree aes aes')
include ha

theorem Agree.nextPacket (h : t.tx.encrypted = true → t.pAesCtx.isSome = true) :
    nextPacket aes' t = nextPacket aes t := by
  unfold Transport.nextPacket buildPacket
  split
  · next hmarked =>
    obtain ⟨key, hkey⟩ := Option.isSome_iff_exists.mp (h (Bool.and_eq_true _ _ ▸ hmarked).2)
    simp only [doEncrypt, hkey, ha.encrypt]
  · rfl

theorem Agree.sendLoop (link : Link) (fuel : Nat) (h : t.tx.encrypted = true → t.pAesCtx.isSome = true) :
    sendLoop aes' link fuel t = sendLoop aes link fuel t := by
  induction fuel generalizing t with
  | zero => rfl
  | succ fuel ih =>
    have hrest := ih (context_of_same (packetSent_same (min (txBytesLeft t) (payloadMaxLen t)) t) h)
    rw [Transport.sendLoop, Transport.sendLoop, ha.nextPacket h]
    dsimp only
    rw [hrest]

theorem Agree.send (link : Link) (fuel : Nat) :
    (∀ {t : Transport.State κ}, (t.tx.encrypted = true → t.pAesCtx.isSome = true) →
      sendFragment aes' link fuel t = sendFragment aes link fuel t) ∧
    (∀ {n : Nat} {t : Transport.State κ}, (t.tx.encrypted = true → t.pAesCtx.isSome = true) →
      transportTxdone aes' link fuel n t = transportTxdone aes link fuel n t) := by
  induction fuel with
  | zero => exact ⟨fun _ => by simp only [sendFragment], fun _ => by simp only [transportTxdone]⟩
  | succ fuel ih =>
    constructor
    · intro t h
      rw [sendFragment, sendFragment, ha.sendLoop link fuel h]
      cases hloop : Transport.sendLoop aes link fuel t with
      | none => rfl
      | some r =>
        dsimp only
        rw [ih.2 (context_of_same (sendLoop_same hloop) h)]
    · intro n t h
      rw [transportTxdone, transportTxdone, ih.1 (context_of_same (confirm_same n t) h)]

theorem Agree.decode {ctx : Option κ} {buf : Bytes} {room : Nat} (h : Header.isEnc buf = true → ctx.isSome = true) :
    decode aes' ctx buf room = decode aes ctx buf room := by
  unfold Transport.decode
  dsimp only
  split
  · next henc =>
    obtain ⟨key, rfl⟩ := Option.isSome_iff_exists.mp (h (Bool.and_eq_true _ _ ▸ henc).2)
    simp only [doDecrypt, ha.decrypt]
  · rfl

theorem Agree.transportRx (cfg : Config) (buf : Bytes) (length : Nat)
    (h : t.pKey.isSome = true → t.pAesCtx.isSome = true) :
    transportRx cfg aes' buf length t = transportRx cfg aes buf length t := by
  unfold Transport.transportRx
  repeat' split
  any_goals rfl
  next hcheck =>
    rw [ha.decode (fun henc => h (keyed_of_rxCheck henc hcheck))]
end

end Agree

section Agree
variable {cfg : Config} {hal : Hal} {dev : Device} {env : Env} {s : State} {aes' : Aes Bytes}

def Hal.withAes (hal : Hal) (aes' : Aes Bytes) : Hal := { hal with aes := aes' }

section
variable (ha : Agree hal.aes aes')
include ha

theorem transmit_agree (h : Live s.transport) (txType : TxType) (msgId cmd : UInt8) (pData : Option Bytes)
    (length : Nat) :
    transmit cfg (hal.withAes aes') env txType msgId cmd pData length s =
      transmit cfg hal env txType msgId cmd pData length s := by
  have hstart := startTx_live cfg h txType msgId cmd pData length
  unfold transmit transportTx
  rw [Hal.withAes, (ha.send _ env.fuel).1 hstart.context]

theorem cipherText_agree {ctx : Option Bytes} (hctx : ctx.isSome = true) (data : Bytes) :
    cipherText (hal.withAes aes') ctx data = cipherText hal ctx data := by
  obtain ⟨key, rfl⟩ := Option.isSome_iff_exists.mp hctx
  simp only [cipherText, Hal.withAes, ha.encrypt]

theorem answerRand_agree (hgranted : env.ctxGranted = true) (data : Bytes) :
    answerRand cfg (hal.withAes aes') dev env data s = answerRand cfg hal dev env data s := by
  obtain ⟨hkey, hctx⟩ := updateAesKey_live hal hgranted
    { s with auth := { s.auth with state := .verify, ikm := ikmOf dev s.auth data } }
  have hupdate : ∀ s, updateAesKey (hal.withAes aes') env s = updateAesKey hal env s := fun _ => rfl
  unfold answerRand
  dsimp only
  rw [hupdate, cipherText_agree ha hctx, transmit_agree ha hkey]

theorem authRxCommand_agree (hgranted : env.ctxGranted = true) (cmd : UInt8) (data : Bytes) :
    authRxCommand cfg (hal.withAes aes') dev env cmd data s = authRxCommand cfg hal dev env cmd data s := by
  rw [authRxCommand, authRxCommand, answerRand_agree ha hgranted]

theorem receive_agree (h : Live s.transport) (hgranted : env.ctxGranted = true) (buf : Bytes) (length : Nat) :
    receive cfg (hal.withAes aes') dev env buf length s = receive cfg hal dev env buf length s := by
  have hrx : Transport.transportRx cfg (hal.withAes aes').aes buf length s.transport = _ :=
    ha.transportRx cfg buf length h.key
  unfold receive
  rw [hrx]
  simp only [authRxCommand_agree ha hgranted]

theorem indicationDone_agree (h : Live s.transport) (res : RetCode) :
    indicationDone (hal.withAes aes') env res s = indicationDone hal env res s := by
  rw [indicationDone, indicationDone, Hal.withAes, (ha.send _ env.fuel).2 h.context]
end

end Agree

theorem step_agree {hal : Hal} {dev : Device} {s : State} {e : Event} {aes' : Aes Bytes} (ha : Agree hal.aes aes')
    (h : Live s.transport) (ho : Orderly cfg s e) : step cfg (hal.withAes aes') dev s e = step cfg hal dev s e := by
  obtain ⟨call, env⟩ := e
  cases call with
  | rx buf length => exact receive_agree ha h ho buf length
  | tx txType msgId cmd pData length => simp only [step, transmit_agree ha h]
  | indicationDone res => exact indicationDone_agree ha h res
  | _ => rfl

/-! ### Every run -/

theorem init_live (cfg : Config) : Live (init cfg).transport := by
  constructor <;> intro h <;> cases h

/-- **A session key has its cipher context** in every state of a run whose resets meet no key
and whose contexts get their memory. Every context that a call of such a run hands to the
cipher is live, and the run is the same for every cipher that does the same with live
contexts, whatever it does with a null one. -/
theorem key_has_context (cfg : Config) (hal : Hal) (dev : Device) (events : List Event) (s : State)
    (trace : List (Event × Output)) (ho : (machine cfg hal dev).Meets (Orderly cfg) (init cfg) events)
    (hr : (machine cfg hal dev).run (init cfg) events = some (s, trace)) :
    (s.transport.pKey.isSome = true → s.transport.pAesCtx.isSome = true) ∧
    (∀ shown ∈ trace, ∀ ctx ∈ shown.2.ciphers, ctx.isSome = true) ∧
    ∀ aes', Agree hal.aes aes' →
      (machine cfg (hal.withAes aes') dev).run (init cfg) events = some (s, trace) := by
  have hinv : Live s.transport ∧ ∀ shown ∈ trace, AllLive shown.2.ciphers := by
    refine (machine cfg hal dev).run_invariant (Orderly cfg)
      (fun past s => Live s.transport ∧ ∀ shown ∈ past, AllLive shown.2.ciphers) ?_ ⟨init_live cfg, by simp⟩ ho hr
    rintro past s e s' out ⟨hlive, hpast⟩ horder hstep
    obtain ⟨hlive', hout⟩ := step_live hlive horder hstep
    exact ⟨hlive', forall_snoc hpast hout⟩
  refine ⟨hinv.1.key, hinv.2, fun aes' ha => ?_⟩
  rw [← hr]
  exact Machine.run_congr (Orderly cfg) (fun s => Live s.transport)
    (fun s e hlive horder => step_agree ha hlive horder)
    (fun s e s' out hlive horder hstep => (step_live hlive horder hstep).1) (init_live cfg) ho

/-- A cipher that copies under a live context and, like the one of the platform, writes
nothing under a null one. -/
def copyingHal : Hal where
  aes := ⟨fun ctx x => if ctx.isSome then x else [], fun ctx x => if ctx.isSome then x else []⟩
  sha256 := id

def someDevice : Device := ⟨List.replicate 8 0x30, [0x61], [0x62], [0x63]⟩

def favourable : Env := ⟨fun _ => true, 10, true, .success, gattMtuSizeDefault⟩

def favourably (call : Call) : Event := ⟨call, favourable⟩

def authenticated : List Event :=
  [.advertise .perPk, .connected, .icCcc .indicate, .ncCcc .notify,
    .rx ([0x00, Cmd.setRand, 0x00, 16] ++ List.replicate 16 7) 20, .indicationDone .success,
    .rx [0x00, Cmd.auth, 0x00, 1, 0] 5, .tx .notification 0 Cmd.report (some [1, 2, 3]) 3].map favourably

theorem key_has_context_authenticated :
    ∃ s trace, (machine shortConfig copyingHal someDevice).run (init shortConfig) authenticated = some (s, trace) ∧
      (s.transport.pKey.isSome = true → s.transport.pAesCtx.isSome = true) ∧
      (∀ shown ∈ trace, ∀ ctx ∈ shown.2.ciphers, ctx.isSome = true) ∧
      ∀ aes', Agree copyingHal.aes aes' →
        (machine shortConfig (copyingHal.withAes aes') someDevice).run (init shortConfig) authenticated =
          some (s, trace) := by
  have hrun : ((machine shortConfig copyingHal someDevice).run (init shortConfig) authenticated).isSome = true := by
    decide +kernel
  obtain ⟨⟨s, trace⟩, hr⟩ := Option.isSome_iff_exists.mp hrun
  exact ⟨s, trace, hr,
    key_has_context shortConfig copyingHal someDevice authenticated s trace (by decide +kernel) hr⟩

/-- The connection of the authenticated peer is lost. The next one, without any
authentication, sends a packet that says it is encrypted. -/
def reconnected : List Event :=
  authenticated ++ [.disconnected, .connected, .rx ([0x10, Cmd.set, 0x00, 16] ++ List.replicate 16 7) 20].map favourably

/-- **The key outlives its context**: a run in which everything the surroundings are asked for
succeeds ends with a key and no context, and on the way the cipher is called with a null one. -/
theorem key_outlives_context :
    (¬ ∀ (cfg : Config) (hal : Hal) (dev : Device) (events : List Event) (s : State) (trace : List (Event × Output)),
      (machine cfg hal dev).run (init cfg) events = some (s, trace) →
      s.transport.pKey.isSome = true → s.transport.pAesCtx.isSome = true) ∧
    ¬ ∀ (cfg : Config) (hal : Hal) (dev : Device) (events : List Event) (s : State) (trace : List (Event × Output)),
      (machine cfg hal dev).run (init cfg) events = some (s, trace) →
      ∀ shown ∈ trace, ∀ ctx ∈ shown.2.ciphers, ctx.isSome = true := by
  have hrun : ((machine shortConfig copyingHal someDevice).run (init shortConfig) reconnected).map
      (fun r => (r.1.transport.pKey.isSome, r.1.transport.pAesCtx.isSome,
        r.2.all fun shown => shown.2.ciphers.all Option.isSome)) = some (true, false, false) := by
    decide +kernel
  obtain ⟨⟨s, trace⟩, hr, hend⟩ := Option.map_eq_some_iff.mp hrun
  obtain ⟨hkey, hrest⟩ := Prod.mk.inj hend
  obtain ⟨hctx, hciphers⟩ := Prod.mk.inj hrest
  constructor
  · intro hall
    have hlive := hall shortConfig copyingHal someDevice reconnected s trace hr hkey
    rw [hctx] at hlive
    cases hlive
  · intro hall
    have hlive := hall shortConfig copyingHal someDevice reconnected s trace hr
    rw [← Bool.not_eq_true, List.all_eq_true] at hciphers
    exact hciphers fun shown hshown => List.all_eq_true.mpr (hlive shown hshown)

end Qumios.Ble.Session
