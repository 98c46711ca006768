import Qumios.Cloud.Download

/-! The sessions of an update from the cloud (`qm_iot_ota.c`).

A job notification clears the fields of the job before it, and with a whole job in it
starts a session. From there on the blocks that come, a retry action that asks for a
block again, and an action that ends the update a second after its signature was found
good move the one handle there is; `qm_iot_event_handler` is called by all of them.

Of the handle, `Download` knows where the download stands. Here are the rest of it and
the statics of the handler: what the last job said, the progress published last, which
actions are scheduled, and what the hash has been fed. A cancelled action does not run,
and one that is posted again runs once. -/
namespace Qumios.Cloud.Session
open Run List Option

/-- `CONFIG_QM_IOT_OTA_RETRY_COUNT`. -/
def otaRetryCount : Nat := 10

/-- `CONFIG_QM_IOT_OTA_PROGRESS_GRADE`. -/
def otaProgressGrade : Nat := 5

/-- `QM_IOT_OTA_UPDATA_COMPLETE`. -/
def otaUpdataComplete : Nat := 100

/-- `qm_iot_ota_event_type_t`. -/
inductive EventType where
  | none
  | ready
  | start
  | dataInstalling
  | progressUpadte
  | success
  | failed
  | cancel
  deriving DecidableEq, Repr

/-- What `qm_iot_ota_notify_next_handler` reads in a notification. -/
inductive Notice where
  /-- There is no job in it, or not one of this protocol. -/
  | none
  /-- A job whose signature cannot be decoded. -/
  | unsigned (doc : Document)
  /-- A job; a file of no bytes is not read as far as its signature. -/
  | job (doc : Document) (pos : 0 < doc.fileSize)

/-- What is said to the outside. -/
inductive Output where
  /-- `qm_ota_start` and `qm_iot_crypto_signature_verification_start`, for the file of a job. -/
  | otaStart (doc : Document)
  | otaWrite (data : Bytes)
  | signatureUpdate (data : Bytes)
  /-- `qm_iot_crypto_verify_finish`: what the hash was fed since it was started, unless it has
  been finished before, and whether the signature is one of it. -/
  | verifyFinish (hash : Option Bytes) (ok : Bool)
  | request (blockOffset : Nat)
  | publish (failed : Bool) (details : Nat)
  /-- The event handler is called. -/
  | event (type : EventType)
  | otaEnd
  /-- `qm_iot_ota_stop` was called. -/
  | stopped

/-- `qm_iot_ota_handle_t`, and the statics of `qm_iot_event_handler`. -/
structure State where
  handle : Handle
  documentFields : Document
  progressDetails : Nat
  jobUpdatePubNotify : Bool
  retryCount : Nat
  /-- `retry_work` is scheduled. -/
  retryWork : Bool
  /-- `ota_success_work` is scheduled. -/
  successWork : Bool
  eventType : EventType
  /-- The bytes fed to the hash, from its start to its finish. -/
  hash : Option Bytes

def cleared : Document := ⟨0, 0, Nat.two_pow_pos 32⟩

/-- `qm_iot_ota_init`. -/
def init : State where
  handle := ⟨0, 0, 0⟩
  documentFields := cleared
  progressDetails := 0
  jobUpdatePubNotify := false
  retryCount := 0
  retryWork := false
  successWork := false
  eventType := .none
  hash := none

/-! ### `qm_iot_event_handler`, case by case -/

def cancelEvent (s : State) : State × List Output :=
  if s.eventType = .start ∨ s.eventType = .dataInstalling ∨ s.eventType = .progressUpadte then
    ({ s with retryWork := false, eventType := .cancel }, [.event .cancel])
  else ({ s with eventType := .cancel }, [])

def readyEvent (s : State) : State × List Output := ({ s with eventType := .ready }, [.event .ready])

def startEvent (s : State) : State × List Output :=
  ({ s with
      handle := { s.handle with lastReceivedblockId := -1 }
      jobUpdatePubNotify := false
      retryCount := 0
      retryWork := true
      eventType := .start
      hash := some [] },
    [.otaStart s.documentFields, .request s.handle.blockOffset, .event .start])

/-- The length is handed on as a `uint16_t`. -/
def dataInstallingEvent (s : State) (data : Bytes) : State × List Output :=
  let data := data.take (data.length % 65536)
  ({ s with
      retryCount := 0
      retryWork := true
      eventType := .dataInstalling
      hash := s.hash.map (· ++ data) },
    [.otaWrite data, .signatureUpdate data, .event .dataInstalling])

def failedEvent (s : State) (details : Nat) : State × List Output :=
  ({ s with jobUpdatePubNotify := false, progressDetails := details, eventType := .failed },
    [.publish true details, .event .failed])

def publishProgress (s : State) (details : Nat) : State × List Output :=
  if details / otaProgressGrade ≠ 0 ∧ details % otaProgressGrade = 0 then
    ({ s with progressDetails := details }, [.publish false details])
  else (s, [])

/-- `verified` is what the check of the signature finds, if there is one. -/
def progressUpadteEvent (s : State) (details : Nat) (verified : Bool) : State × List Output :=
  let s := { s with retryWork := false }
  if details = s.progressDetails then ({ s with eventType := .progressUpadte }, [])
  else if details ≠ otaUpdataComplete then
    let (s, published) := publishProgress { s with retryCount := 0 } details
    ({ s with eventType := .progressUpadte }, published ++ [.event .progressUpadte])
  else
    let check := Output.verifyFinish s.hash verified
    let s := { s with hash := none }
    if verified then
      let (s, published) := publishProgress { s with retryCount := 0 } details
      ({ s with jobUpdatePubNotify := true, successWork := true, eventType := .progressUpadte },
        check :: published ++ [.event .progressUpadte])
    else
      let (s, failed) := failedEvent s details
      (s, check :: failed)

def successEvent (s : State) : State × List Output :=
  ({ s with jobUpdatePubNotify := false, eventType := .success }, [.event .success, .otaEnd])

/-! ### The handlers and the actions -/

def request (s : State) : List Output :=
  if s.handle.totalBytesReceived < s.documentFields.fileSize then [.request s.handle.blockOffset] else []

/-- The lines from `__next` on. -/
def next (s : State) (verified : Bool) : State × List Output :=
  let (s', outputs) := progressUpadteEvent s (s.handle.progress s.documentFields) verified
  (s', request s ++ outputs)

/-- `qm_iot_ota_update_progress_handler`. -/
def updateProgressHandler (s : State) (block : Option Block) (verified : Bool) : State × List Output :=
  if s.documentFields.fileSize = 0 then (s, [])
  else
    match recvicedDatablock block with
    | none => next s verified
    | some block =>
      if progressDataMatch s.documentFields block s.handle.lastReceivedblockId then
        let (s', installed) := dataInstallingEvent s block.payload
        let (s'', outputs) := next { s' with handle := take s.handle block } verified
        (s'', installed ++ outputs)
      else next s verified

/-- `qm_iot_ota_notify_next_handler`. -/
def notifyNextHandler (s : State) (notice : Notice) : State × List Output :=
  let s := { s with retryWork := false, documentFields := cleared }
  match notice with
  | .none => (s, [])
  | .unsigned doc => ({ s with documentFields := doc }, [])
  | .job doc _ =>
    startEvent { s with
      documentFields := doc
      handle := { s.handle with currentBlockOffset := 0, totalBytesReceived := 0 }
      successWork := false }

/-- `qm_iot_ota_retry_timeout`. -/
def retryTimeout (s : State) : State × List Output :=
  let count := s.retryCount
  let s := { s with retryWork := false, retryCount := count + 1 }
  if count ≥ otaRetryCount then failedEvent s 0 else ({ s with retryWork := true }, request s)

/-- `qm_iot_ota_success_action`. -/
def successAction (s : State) : State × List Output :=
  let s := { s with successWork := false }
  if s.jobUpdatePubNotify then successEvent { s with jobUpdatePubNotify := false } else (s, [])

/-- `qm_iot_ota_stop`. -/
def stop (s : State) : State × List Output := ({ s with retryWork := false }, [.stopped])

inductive Event where
  | notifyNext (notice : Notice)
  /-- A data block message, and what a check of the signature would find behind it. -/
  | message (block : Option Block) (verified : Bool)
  /-- The retry action is run. -/
  | retry
  /-- The success action is run. -/
  | success
  /-- An update is announced; the announcement can be read or not. -/
  | announce (readable : Bool)
  | stop

/-- An action runs only where it is scheduled. -/
def step (s : State) : Event → Option (State × List Output)
  | .notifyNext notice => some (notifyNextHandler s notice)
  | .message block verified => some (updateProgressHandler s block verified)
  | .retry => if s.retryWork then some (retryTimeout s) else none
  | .success => if s.successWork then some (successAction s) else none
  | .announce readable => some (if readable then readyEvent s else cancelEvent s)
  | .stop => some (stop s)

def machine : Machine State Event (List Output) := ⟨step⟩

/-! ### The block a message brings -/

def taken (s : State) (block : Option Block) : Option Block :=
  if s.documentFields.fileSize = 0 then none
  else (recvicedDatablock block).filter fun b => progressDataMatch s.documentFields b s.handle.lastReceivedblockId

/-- The state in which a block that is taken leaves the handle to the lines from `__next` on. -/
def installed (s : State) (b : Block) : State :=
  { s with
    handle := take s.handle b
    retryCount := 0
    retryWork := true
    eventType := .dataInstalling
    hash := s.hash.map (· ++ b.payload) }

/-- A message is not looked at, or is not taken, or is installed. -/
theorem updateProgressHandler_cases (s : State) (block : Option Block) (verified : Bool) :
    (s.documentFields.fileSize = 0 ∧ updateProgressHandler s block verified = (s, [])) ∨
    (s.documentFields.fileSize ≠ 0 ∧ taken s block = none ∧ updateProgressHandler s block verified = next s verified) ∨
    ∃ b, s.documentFields.fileSize ≠ 0 ∧ taken s block = some b ∧
      updateProgressHandler s block verified = ((next (installed s b) verified).1,
        [.otaWrite b.payload, .signatureUpdate b.payload, .event .dataInstalling] ++
          (next (installed s b) verified).2) := by
  by_cases hsize : s.documentFields.fileSize = 0
  · exact .inl ⟨hsize, if_pos hsize⟩
  · right
    rw [taken, if_neg hsize, updateProgressHandler, if_neg hsize]
    cases hblock : recvicedDatablock block with
    | none => exact .inl ⟨hsize, rfl, rfl⟩
    | some b =>
      have hlen : b.payload.length ≤ streamsBlockSize :=
        of_decide_eq_true (filter_eq_some_iff.mp hblock).2
      have hwhole : b.payload.take (b.payload.length % 65536) = b.payload := by
        rw [Nat.mod_eq_of_lt (Nat.lt_of_le_of_lt hlen (by decide)), take_length]
      cases hmatch : progressDataMatch s.documentFields b s.handle.lastReceivedblockId with
      | false => exact .inl ⟨hsize, filter_some_neg (by simp [hmatch]), by simp [hmatch]⟩
      | true =>
        refine .inr ⟨b, hsize, filter_some_pos hmatch, ?_⟩
        simp only [hmatch, if_true, dataInstallingEvent, hwhole]
        rfl

/-! ### What a step can do -/

/-- The state a job starts its session in. -/
def started (s : State) (doc : Document) : State :=
  { s with
    handle := start
    documentFields := doc
    jobUpdatePubNotify := false
    retryCount := 0
    retryWork := true
    successWork := false
    eventType := .start
    hash := some [] }

inductive Effect (s : State) : Event → State → List Output → Prop
  | dropped : Effect s (.notifyNext .none) { s with retryWork := false, documentFields := cleared } []
  | refused (doc : Document) :
      Effect s (.notifyNext (.unsigned doc)) { s with retryWork := false, documentFields := doc } []
  | started (doc : Document) (pos : 0 < doc.fileSize) :
      Effect s (.notifyNext (.job doc pos)) (started s doc) [.otaStart doc, .request 0, .event .start]
  | message (block : Option Block) (verified : Bool) :
      Effect s (.message block verified) (updateProgressHandler s block verified).1
        (updateProgressHandler s block verified).2
  | failed (hretry : s.retryWork = true) (hcount : otaRetryCount ≤ s.retryCount) :
      Effect s .retry
        { s with
          retryWork := false, retryCount := s.retryCount + 1, jobUpdatePubNotify := false
          progressDetails := 0, eventType := .failed }
        [.publish true 0, .event .failed]
  | retried (hretry : s.retryWork = true) (hcount : s.retryCount < otaRetryCount) :
      Effect s .retry { s with retryWork := true, retryCount := s.retryCount + 1 } (request s)
  | succeeded (hnotify : s.jobUpdatePubNotify = true) :
      Effect s .success { s with successWork := false, jobUpdatePubNotify := false, eventType := .success }
        [.event .success, .otaEnd]
  | idle : Effect s .success { s with successWork := false } []
  | ready : Effect s (.announce true) { s with eventType := .ready } [.event .ready]
  | cancelled : Effect s (.announce false) { s with retryWork := false, eventType := .cancel } [.event .cancel]
  | kept : Effect s (.announce false) { s with eventType := .cancel } []
  | stopped : Effect s .stop { s with retryWork := false } [.stopped]

theorem step_effect {s : State} {e : Event} {after : State × List Output}
    (h : machine.step s e = some after) : Effect s e after.1 after.2 := by
  cases e with
  | notifyNext notice =>
    obtain rfl := Option.some.inj h
    cases notice with
    | none => exact .dropped
    | unsigned doc => exact .refused doc
    | job doc pos => exact .started doc pos
  | message block verified =>
    obtain rfl := Option.some.inj h
    exact .message block verified
  | retry =>
    obtain ⟨hretry, h⟩ := ite_none_right_eq_some.mp h
    obtain rfl := Option.some.inj h
    by_cases hcount : s.retryCount ≥ otaRetryCount
    · rw [retryTimeout, if_pos hcount]
      exact .failed hretry hcount
    · rw [retryTimeout, if_neg hcount]
      exact .retried hretry (Nat.lt_of_not_le hcount)
  | success =>
    obtain ⟨-, h⟩ := ite_none_right_eq_some.mp h
    obtain rfl := Option.some.inj h
    by_cases hnotify : s.jobUpdatePubNotify = true
    · rw [successAction, if_pos hnotify]
      exact .succeeded hnotify
    · rw [successAction, if_neg hnotify]
      exact .idle
  | announce readable =>
    obtain rfl := Option.some.inj h
    cases readable with
    | true => exact .ready
    | false =>
      rw [if_neg Bool.false_ne_true, cancelEvent]
      split
      · exact .cancelled
      · exact .kept
  | stop =>
    obtain rfl := Option.some.inj h
    exact .stopped

/-! ### A session as its outputs tell it -/

/-- What has been heard of a session since its start. -/
structure Record where
  /-- The size of the file that was announced. -/
  fileSize : Nat
  written : Bytes
  checks : List (Option Bytes × Bool)
  /-- It has succeeded, failed, been cancelled or been stopped. -/
  ended : Bool

def Record.close (r : Record) : Record := { r with ended := true }

def Record.after (r : Option Record) : Output → Option Record
  | .otaStart doc => some ⟨doc.fileSize, [], [], false⟩
  | .otaWrite data => r.map fun r => { r with written := r.written ++ data }
  | .verifyFinish hash ok => r.map fun r => { r with checks := r.checks ++ [(hash, ok)] }
  | .event .success | .event .failed | .event .cancel | .stopped => r.map Record.close
  | _ => r

def tell (r : Option Record) (outputs : List Output) : Option Record := outputs.foldl Record.after r

abbrev Trace := List (Event × List Output)

def session (trace : Trace) : Option Record := tell none (trace.flatMap Prod.snd)

theorem tell_append (r : Option Record) (a b : List Output) : tell r (a ++ b) = tell (tell r a) b :=
  foldl_append ..

theorem session_snoc (trace : Trace) (e : Event) (outputs : List Output) :
    session (trace ++ [(e, outputs)]) = tell (session trace) outputs := by
  simp [session, tell]

@[simp] theorem tell_request (r : Option Record) (s : State) : tell r (request s) = r := by
  rw [request]
  split <;> rfl

/-! ### The progress -/

theorem publishProgress_frame (s : State) (details : Nat) :
    ∃ outputs progress, publishProgress s details = ({ s with progressDetails := progress }, outputs) ∧
      (∀ r, tell r outputs = r) ∧ (details = otaUpdataComplete → progress = details) := by
  rw [publishProgress]
  split
  · exact ⟨_, _, rfl, fun _ => rfl, fun _ => rfl⟩
  · rename_i hgrade
    refine ⟨_, s.progressDetails, rfl, fun _ => rfl, fun hd => absurd ?_ hgrade⟩
    rw [hd]
    decide

/-- What the progress event leaves and says. -/
structure Progressed (s : State) (details : Nat) (verified : Bool) (after : State × List Output) : Prop where
  handle : after.1.handle = s.handle
  fields : after.1.documentFields = s.documentFields
  /-- The retry action is no longer scheduled, whatever the progress is. -/
  retry : after.1.retryWork = false
  same : details = s.progressDetails → after.1.progressDetails = s.progressDetails
  /-- There is no check if the progress is the one that was published last, or is not complete. -/
  quiet : details = s.progressDetails ∨ details ≠ otaUpdataComplete →
    after.1.jobUpdatePubNotify = s.jobUpdatePubNotify ∧ after.1.hash = s.hash ∧ ∀ r, tell r after.2 = r
  checked : details ≠ s.progressDetails → details = otaUpdataComplete →
    after.1.progressDetails = otaUpdataComplete ∧ after.1.jobUpdatePubNotify = verified ∧
      ∀ r, tell r after.2 = r.map fun r =>
        { r with checks := r.checks ++ [(s.hash, verified)], ended := r.ended || !verified }

theorem progressUpadteEvent_spec (s : State) (details : Nat) (verified : Bool) :
    Progressed s details verified (progressUpadteEvent s details verified) := by
  rw [progressUpadteEvent]
  by_cases hsame : details = s.progressDetails
  · simp only [hsame, if_true]
    exact ⟨rfl, rfl, rfl, fun _ => rfl, fun _ => ⟨rfl, rfl, fun _ => rfl⟩, fun h => absurd rfl h⟩
  · simp only [hsame, if_false]
    by_cases hcomplete : details = otaUpdataComplete
    · simp only [hcomplete, ne_eq, not_true_eq_false, if_false]
      cases verified with
      | false =>
        exact ⟨rfl, rfl, rfl, fun h => absurd (hcomplete.trans h) hsame,
          fun h => absurd h (by simp [← hcomplete, hsame]),
          fun _ _ => ⟨rfl, rfl, fun r => by cases r <;> simp [tell, Record.after, Record.close, failedEvent]⟩⟩
      | true =>
        obtain ⟨outputs, progress, heq, htell, hprogress⟩ := publishProgress_frame
          { s with retryWork := false, hash := none, retryCount := 0 } otaUpdataComplete
        simp only [heq, if_true]
        refine ⟨rfl, rfl, rfl, fun h => absurd (hcomplete.trans h) hsame,
          fun h => absurd h (by simp [← hcomplete, hsame]), fun _ _ => ⟨hprogress rfl, rfl, fun r => ?_⟩⟩
        rw [cons_append, tell, foldl_cons, ← tell, tell_append, htell]
        cases r <;> simp [tell, Record.after]
    · simp only [ne_eq, hcomplete, not_false_eq_true, if_true]
      obtain ⟨outputs, progress, heq, htell, -⟩ := publishProgress_frame
        { s with retryWork := false, retryCount := 0 } details
      simp only [heq]
      refine ⟨rfl, rfl, rfl, fun h => absurd h hsame, fun _ => ⟨rfl, rfl, fun r => ?_⟩, fun _ h => absurd h hcomplete⟩
      rw [tell_append, htell]
      rfl

def Output.final : Output → Bool
  | .event .success | .otaEnd => true
  | _ => false

theorem progressUpadteEvent_final (s : State) (details : Nat) (verified : Bool) :
    ∀ o ∈ (progressUpadteEvent s details verified).2, o.final = false := by
  have hpublish (s : State) : ∀ o ∈ (publishProgress s details).2, o.final = false := by
    rw [publishProgress]
    split <;> simp [Output.final]
  rw [progressUpadteEvent]
  split
  · simp
  · split
    · exact forall_snoc (hpublish _) rfl
    · split
      · exact forall_snoc (forall_mem_cons.mpr ⟨rfl, hpublish _⟩) rfl
      · simp [failedEvent, Output.final]

theorem request_final (s : State) : ∀ o ∈ request s, o.final = false := by
  rw [request]
  split <;> simp [Output.final]

theorem updateProgressHandler_final (s : State) (block : Option Block) (verified : Bool) :
    ∀ o ∈ (updateProgressHandler s block verified).2, o.final = false := by
  have hnext (s : State) : ∀ o ∈ (next s verified).2, o.final = false :=
    forall_mem_append.mpr ⟨request_final s, progressUpadteEvent_final s _ verified⟩
  rcases updateProgressHandler_cases s block verified with ⟨-, heq⟩ | ⟨-, -, heq⟩ | ⟨b, -, -, heq⟩
  · simp [heq]
  · rw [heq]
    exact hnext s
  · rw [heq]
    exact forall_mem_append.mpr ⟨by simp [Output.final], hnext _⟩

/-- An update ends where the success action finds its flag set. -/
theorem Effect.final_notify {s s' : State} {e : Event} {outputs : List Output} (h : Effect s e s' outputs)
    {o : Output} (ho : o ∈ outputs) (hfinal : o.final = true) : s.jobUpdatePubNotify = true := by
  cases h with
  | succeeded hnotify => exact hnotify
  | message block verified =>
    rw [updateProgressHandler_final s block verified o ho] at hfinal
    cases hfinal
  | retried hretry hcount =>
    rw [request_final s o ho] at hfinal
    cases hfinal
  | dropped | refused | idle | kept => cases ho
  | started doc pos =>
    simp only [mem_cons, not_mem_nil, or_false] at ho
    rcases ho with rfl | rfl | rfl <;> cases hfinal
  | failed hretry hcount =>
    simp only [mem_cons, not_mem_nil, or_false] at ho
    rcases ho with rfl | rfl <;> cases hfinal
  | ready | cancelled | stopped =>
    rw [mem_singleton.mp ho] at hfinal
    cases hfinal

end Qumios.Cloud.Session
