import Qumios.Ble.Sending
import Qumios.Lib.Run

/-! Sessions over the transport: `qm_ble_auth.c`, the handlers of `qm_ble_service.c`
and the reset of `qm_ble_core.c`.

A peer connects and enables both characteristics; it then sends a random sequence, from
which both sides derive the session key, and the device answers with the sequence
encrypted under that key. The peer's verdict ends the authentication. The stack, the
timers and the application call in at any time and in any order; a `Call` is one of
these entries, and runs to its end.

The transport keeps a pointer to the key and, beside it, the cipher context made from the
key. The key is set in one place, `qm_ble_transport_update_key`; the context is made there
too, by an allocation that can fail, and is destroyed there and in
`qm_ble_transport_reset`. What a call hands to the cipher is part of what it shows
(`Output.ciphers`): a null context there is one that was destroyed or never made. -/
namespace Qumios.Ble.Session
open Run Transport

/-! ### The state -/

inductive AuthState where
  | idle
  | connected
  | svcEnabled
  | verify
  | done
  | failed
  deriving DecidableEq, Repr

inductive AuthType where
  | none
  | perPk
  | perDev
  deriving DecidableEq, Repr

/-- `g_am_auth`, with `ikm` up to `ikm_len`. -/
structure Auth where
  state : AuthState := .idle
  authType : AuthType := .none
  ikm : Bytes := []

/-- `g_qms`. -/
structure Service where
  /-- The connection handle is the one of a connection. -/
  connHandle : Bool := false
  isIndicationEnabled : Bool := false
  isNotificationEnabled : Bool := false

structure State where
  auth : Auth
  service : Service
  transport : Transport.State Bytes

/-- What `g_qm_core` holds of the device, as it enters the key: the product identifier
as text and, of the device identifier, the text that `QB_VERSION` makes of it. -/
structure Device where
  strPid : Bytes
  strDid : Bytes
  deviceSecret : Bytes
  productSecret : Bytes

/-- The functions of other components that a session computes with. -/
structure Hal where
  aes : Aes Bytes
  sha256 : Bytes → Bytes

/-- What the surroundings answer during one call. -/
structure Env where
  /-- The outcome of each attempt to hand a packet to the stack. -/
  link : Link
  fuel : Nat
  /-- `qm_ble_aes128_init` gets its memory. -/
  ctxGranted : Bool
  /-- What `qm_ble_timer_start` returns for the timer of the authentication. -/
  timerStart : RetCode
  /-- What `qm_ble_get_att_mtu` reports. -/
  mtu : Nat

/-- The value written to a client characteristic configuration. -/
inductive CccValue where
  | none
  | notify
  | indicate
  deriving DecidableEq, Repr

inductive Notice where
  | connected
  | disconnected
  | authenticated
  deriving DecidableEq, Repr

inductive Action where
  | transport (out : Transport.Output)
  | received (message : Message)
  | notify (event : Notice)
  /-- `qm_ble_disconnect`: the stack is asked to close the connection. -/
  | disconnect
  deriving DecidableEq, Repr

/-- What a call shows: its actions, and the context of each call of the cipher. -/
structure Output where
  actions : List Action := []
  ciphers : List (Option Bytes) := []

inductive Call where
  /-- `qm_ble_core_create_bz_adv_data`, which settles how peers authenticate. -/
  | advertise (secType : AuthType)
  | connected
  | disconnected
  | icCcc (val : CccValue)
  | ncCcc (val : CccValue)
  | rx (buf : Bytes) (length : Nat)
  | tx (txType : TxType) (msgId cmd : UInt8) (pData : Option Bytes) (length : Nat)
  /-- `send_indication_done`. -/
  | indicationDone (res : RetCode)
  | txTimeout
  | rxTimeout
  | authTimeout
  | updateKey (key : Bytes)
  | reset

structure Event where
  call : Call
  env : Env

/-! ### Keys and contexts -/

/-- `qm_ble_transport_update_key`, whose context may not be made. -/
def transportUpdateKey (env : Env) (key : Bytes) (t : Transport.State Bytes) : Transport.State Bytes :=
  if env.ctxGranted then Transport.updateKey key t else { t with pKey := some key, pAesCtx := none }

/-- `qm_ble_transport_reset`; only a build with authentication destroys the context. -/
def transportReset (cfg : Config) (t : Transport.State Bytes) : Transport.State Bytes :=
  if cfg.enableAuth then Transport.reset t else resetRx (resetTx t)

/-- The contexts `do_encrypt` hands to the cipher while a message goes on from `t` to `t'`:
`build_packet` calls it once for each packet that is offered, unless the message is empty. -/
def encryptions (t t' : Transport.State Bytes) : List (Option Bytes) :=
  if t.tx.encrypted && t.tx.len ≠ 0 then List.replicate (t'.tx.attempts - t.tx.attempts) t.pAesCtx else []

/-- The context `do_decrypt` hands to the cipher while a packet is received: it is reached
behind all checks, with bytes to decrypt and not more than a frame of them. -/
def decryptions (cfg : Config) (buf : Bytes) (length : Nat) (t : Transport.State Bytes) : List (Option Bytes) :=
  if length = 0 then []
  else if (length : Int) - headerSize + t.rx.bytesReceived > cfg.maxPayloadSize then []
  else
    match t.rx.frame buf with
    | .error _ => []
    | .ok rx =>
      match rxCheck t.pKey.isSome buf length with
      | some _ => []
      | none =>
        let data := (buf.drop headerSize).take (min (cfg.maxPayloadSize - rx.bytesReceived) (Header.frameLen buf))
        if data.length > 0 && Header.isEnc buf && data.length ≤ frameSizeMax then [t.pAesCtx] else []

/-! ### Authentication -/

def authReset (s : State) : State := { s with auth := { s.auth with state := .idle } }

/-- `qm_ble_core_handle_err` for an error of the authentication. -/
def handleAuthErr (code : RetCode) (s : State) : State × List Action :=
  (authReset s, if code = .etimeout then [.disconnect] else [])

def randomSeqLen : Nat := 16
def maxOkmLen : Nat := 16

/-- The text the key is the digest of, for a random sequence `rand`. -/
def ikmOf (dev : Device) (a : Auth) (rand : Bytes) : Bytes :=
  let comma : UInt8 := 0x2C
  let start := a.ikm ++ rand ++ [comma] ++ dev.strPid ++ [comma]
  if a.authType = .perDev then start ++ dev.strDid ++ [comma] ++ dev.deviceSecret
  else start ++ dev.productSecret

/-- `update_aes_key`. -/
def updateAesKey (hal : Hal) (env : Env) (s : State) : State :=
  { s with transport := transportUpdateKey env ((hal.sha256 s.auth.ikm).take maxOkmLen) s.transport }

def Service.link (v : Service) (link : Link) : TxType → Link
  | .notification => fun n => v.connHandle && v.isNotificationEnabled && link n
  | .indication => fun n => v.connHandle && v.isIndicationEnabled && link n

/-- `qm_ble_transport_tx`, with its return code; `none` when the fuel does not reach. -/
def transmit (cfg : Config) (hal : Hal) (env : Env) (txType : TxType) (msgId cmd : UInt8)
    (pData : Option Bytes) (length : Nat) (s : State) : Option (State × RetCode × Output) :=
  match transportTx cfg hal.aes (s.service.link env.link txType) env.fuel txType msgId cmd pData length
      s.transport with
  | none => none
  | some r =>
    some ({ s with transport := r.state }, r.code,
      { actions := r.out.map .transport
        ciphers := encryptions (startTx cfg txType msgId cmd pData length s.transport) r.state })

/-- `encrypt_data` of `qm_ble_auth_rx_command`: one block, zero where the cipher wrote nothing. -/
def cipherText (hal : Hal) (ctx : Option Bytes) (data : Bytes) : Bytes :=
  let written := (hal.aes.encrypt ctx data).take randomSeqLen
  written ++ List.replicate (randomSeqLen - written.length) 0

/-- The answer to a random sequence: the key is set, the sequence goes back encrypted. -/
def answerRand (cfg : Config) (hal : Hal) (dev : Device) (env : Env) (data : Bytes) (s : State) :
    Option (State × Output) :=
  let s := updateAesKey hal env
    { s with auth := { s.auth with state := .verify, ikm := ikmOf dev s.auth data } }
  let ctx := s.transport.pAesCtx
  match transmit cfg hal env .indication 0 Cmd.auth (some (cipherText hal ctx data)) data.length s with
  | none => none
  | some (s, code, out) =>
    let (s, actions) := if code ≠ .success then handleAuthErr code s else (s, [])
    some (s, { actions := out.actions ++ actions, ciphers := ctx :: out.ciphers })

/-- The end of `qm_ble_auth_rx_command`. -/
def authVerdict (s : State) : State × Output :=
  (s, { actions :=
    match s.auth.state with
    | .done => [.notify .authenticated]
    | .failed => [.disconnect]
    | _ => [] })

def Auth.enter (s : State) (state : AuthState) : State := { s with auth := { s.auth with state := state } }

/-- `qm_ble_auth_rx_command`. -/
def authRxCommand (cfg : Config) (hal : Hal) (dev : Device) (env : Env) (cmd : UInt8) (data : Bytes)
    (s : State) : Option (State × Output) :=
  if data.length = 0 then some (s, {})
  else
    match s.auth.state with
    | .svcEnabled =>
      if cmd == Cmd.setRand then
        if data.length = randomSeqLen then answerRand cfg hal dev env data s else some (s, {})
      else some (authVerdict (Auth.enter s .failed))
    | .verify =>
      if cmd == Cmd.auth && data.length = 1 then
        some (authVerdict (Auth.enter s (if data.getD 0 0 = 0 then .done else .failed)))
      else some (authVerdict s)
    | _ => some (authVerdict s)

/-! ### The handlers of the service -/

/-- `connected`. -/
def connected (cfg : Config) (env : Env) (s : State) : State × Output :=
  let s := { s with service := { connHandle := true } }
  let (s, actions) :=
    if cfg.enableAuth && s.auth.authType ≠ .none then
      if env.timerStart ≠ .success then handleAuthErr env.timerStart s else (Auth.enter s .connected, [])
    else (s, [])
  (s, { actions := actions ++ [.notify .connected] })

/-- `qm_ble_core_reset`. -/
def coreReset (cfg : Config) (s : State) : State :=
  let s := if cfg.enableAuth then authReset s else s
  { s with transport := transportReset cfg s.transport }

/-- `disconnected`, with the reset in the handler of its event. -/
def disconnected (cfg : Config) (s : State) : State × Output :=
  (coreReset cfg { s with service := {} }, { actions := [.notify .disconnected] })

/-- `service_enabled`. -/
def serviceEnabled (cfg : Config) (env : Env) (s : State) : State × Output :=
  if s.service.isIndicationEnabled && s.service.isNotificationEnabled then
    let s := if cfg.longMtu then { s with transport := updateMtu env.mtu s.transport } else s
    if cfg.enableAuth && s.auth.authType ≠ .none then
      ({ s with auth := { s.auth with state := .svcEnabled, ikm := [] } }, {})
    else (s, { actions := [.notify .authenticated] })
  else (s, {})

def icCccHandler (cfg : Config) (env : Env) (val : CccValue) (s : State) : State × Output :=
  let s := { s with service := { s.service with isIndicationEnabled := decide (val = .indicate) } }
  if s.service.isIndicationEnabled then serviceEnabled cfg env s else (s, {})

def ncCccHandler (cfg : Config) (env : Env) (val : CccValue) (s : State) : State × Output :=
  let s := { s with service := { s.service with isNotificationEnabled := decide (val = .notify) } }
  if s.service.isNotificationEnabled then serviceEnabled cfg env s else (s, {})

/-- The write handlers: `qm_ble_transport_rx`. A message of the authentication is handled
before the receiver is reset, which it does not touch. -/
def receive (cfg : Config) (hal : Hal) (dev : Device) (env : Env) (buf : Bytes) (length : Nat) (s : State) :
    Option (State × Output) :=
  let (t, outcome) := transportRx cfg hal.aes buf length s.transport
  let ciphers := decryptions cfg buf length s.transport
  let s := { s with transport := t }
  match outcome with
  | .rejected src code => some (s, { actions := [.transport (.err src code)], ciphers := ciphers })
  | .completed _ (some message) =>
    match message.handler with
    | .event => some (s, { actions := [.received message], ciphers := ciphers })
    | .auth =>
      match authRxCommand cfg hal dev env message.cmd message.payload s with
      | none => none
      | some (s, out) => some (s, { actions := out.actions, ciphers := ciphers ++ out.ciphers })
  | _ => some (s, { ciphers := ciphers })

/-- `send_indication_done`. -/
def indicationDone (hal : Hal) (env : Env) (res : RetCode) (s : State) : Option (State × Output) :=
  if res ≠ .success then some (s, {})
  else
    match transportTxdone hal.aes (s.service.link env.link s.transport.tx.activeFunc) env.fuel 1 s.transport with
    | none => none
    | some (t, out) =>
      some ({ s with transport := t },
        { actions := out.map .transport, ciphers := encryptions s.transport t })

/-! ### The machine -/

def step (cfg : Config) (hal : Hal) (dev : Device) (s : State) (e : Event) : Option (State × Output) :=
  match e.call with
  | .advertise secType =>
    some (if cfg.enableAuth then { s with auth := { s.auth with authType := secType } } else s, {})
  | .connected => some (connected cfg e.env s)
  | .disconnected => some (disconnected cfg s)
  | .icCcc val => some (icCccHandler cfg e.env val s)
  | .ncCcc val => some (ncCccHandler cfg e.env val s)
  | .rx buf length => receive cfg hal dev e.env buf length s
  | .tx txType msgId cmd pData length =>
    match transmit cfg hal e.env txType msgId cmd pData length s with
    | none => none
    | some (s, _, out) => some (s, out)
  | .indicationDone res => indicationDone hal e.env res s
  | .txTimeout =>
    let (t, out) := onTxTimeout s.transport
    some ({ s with transport := t }, { actions := out.map .transport })
  | .rxTimeout => some ({ s with transport := onRxTimeout s.transport }, {})
  | .authTimeout =>
    let (s, actions) := handleAuthErr .etimeout s
    some (s, { actions := actions })
  | .updateKey key => some ({ s with transport := transportUpdateKey e.env key s.transport }, {})
  | .reset => some ({ s with transport := transportReset cfg s.transport }, {})

def machine (cfg : Config) (hal : Hal) (dev : Device) : Machine State Event Output := ⟨step cfg hal dev⟩

/-- `qm_ble_core_init`. -/
def init (cfg : Config) : State := ⟨{}, {}, Transport.init cfg⟩

end Qumios.Ble.Session
