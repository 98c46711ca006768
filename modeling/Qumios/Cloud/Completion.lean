import Qumios.Cloud.Session

/-! When an update from the cloud is complete, and when it waits.

Completion is read off a progress of 100 per cent that is not the progress published
last, and the progress published last is that of the session before until this one has
published its own. `update_completes` says for which runs that comes to the same as
having received the file.

The retry action is posted where a block is installed and cancelled by the progress
event that follows. `update_keeps_asking` says what is left of it. -/
namespace Qumios.Cloud.Session
open Run Option

/-! ### Complete means received and checked -/

/-- A step that keeps the progress in line with the bytes: the file of a job is small enough
for the product, a job is whole, a block does not go beyond the file, and the block that
completes it finds another progress than 100. -/
def Orderly (s : State) : Event → Prop
  | .notifyNext (.unsigned _) => False
  | .notifyNext (.job doc _) => doc.fileSize * 100 < 2 ^ 32
  | .message block _ => ∀ b ∈ taken s block,
      s.handle.totalBytesReceived + b.payload.length ≤ s.documentFields.fileSize ∧
      (s.handle.totalBytesReceived < s.documentFields.fileSize →
        s.handle.totalBytesReceived + b.payload.length = s.documentFields.fileSize →
          s.progressDetails ≠ otaUpdataComplete)
  | _ => True

instance (s : State) : DecidablePred (Orderly s)
  | .notifyNext .none => isTrue trivial
  | .notifyNext (.unsigned _) => isFalse id
  | .notifyNext (.job doc _) => inferInstanceAs (Decidable (doc.fileSize * 100 < 2 ^ 32))
  | .message block _ => inferInstanceAs (Decidable (∀ b ∈ taken s block,
      s.handle.totalBytesReceived + b.payload.length ≤ s.documentFields.fileSize ∧
      (s.handle.totalBytesReceived < s.documentFields.fileSize →
        s.handle.totalBytesReceived + b.payload.length = s.documentFields.fileSize →
          s.progressDetails ≠ otaUpdataComplete)))
  | .retry => isTrue trivial
  | .success => isTrue trivial
  | .announce _ => isTrue trivial
  | .stop => isTrue trivial

/-- A session is loading, or has the whole file and has been checked once. -/
inductive Phase (s : State) (r : Record) : Prop
  | loading (checks : r.checks = []) (hash : s.hash = some r.written) (part : r.written.length < r.fileSize)
      (notify : s.jobUpdatePubNotify = false)
  | checked (ok : Bool) (checks : r.checks = [(some r.written, ok)]) (whole : r.written.length = r.fileSize)
      (progress : s.progressDetails = otaUpdataComplete) (retry : s.retryWork = false)
      (notify : s.jobUpdatePubNotify = true → ok = true)

/-- The state against the session it is in. -/
structure Follows (s : State) (r : Record) : Prop where
  small : r.fileSize * 100 < 2 ^ 32
  fields : s.documentFields.fileSize = 0 ∨ s.documentFields.fileSize = r.fileSize
  total : s.handle.totalBytesReceived = r.written.length
  phase : Phase s r

def Sound (s : State) : Option Record → Prop
  | none => s.documentFields.fileSize = 0 ∧ s.jobUpdatePubNotify = false
  | some r => Follows s r

section Steps
variable {s : State} {r : Record}

/-- A part of the file is less than 100 per cent of it, and the whole file is 100. -/
theorem progress_eq_complete_iff (h : Handle) (doc : Document) (hsmall : doc.fileSize * 100 < 2 ^ 32)
    (hle : h.totalBytesReceived ≤ doc.fileSize) (hpos : doc.fileSize ≠ 0) :
    h.progress doc = otaUpdataComplete ↔ h.totalBytesReceived = doc.fileSize := by
  have hproduct : h.totalBytesReceived * 100 % 2 ^ 32 = h.totalBytesReceived * 100 := Nat.mod_eq_of_lt (by omega)
  have hle100 : h.totalBytesReceived * 100 / doc.fileSize ≤ 100 :=
    Nat.div_le_of_le_mul (Nat.mul_le_mul_right 100 hle)
  rw [Handle.progress, hproduct, Nat.mod_eq_of_lt (by omega), otaUpdataComplete]
  constructor
  · intro hd
    have := Nat.div_mul_le_self (h.totalBytesReceived * 100) doc.fileSize
    rw [hd] at this
    omega
  · intro heq
    rw [heq]
    exact Nat.mul_div_cancel_left 100 (by omega)

/-- The lines from `__next` on keep what has been received in line with what has been checked. -/
theorem Follows.next (verified : Bool) (hsmall : r.fileSize * 100 < 2 ^ 32)
    (hfields : s.documentFields.fileSize = r.fileSize) (hpos : r.fileSize ≠ 0)
    (htotal : s.handle.totalBytesReceived = r.written.length) (hle : r.written.length ≤ r.fileSize)
    (hphase : (r.checks = [] ∧ s.hash = some r.written ∧ s.jobUpdatePubNotify = false ∧
        (r.written.length = r.fileSize → s.progressDetails ≠ otaUpdataComplete)) ∨
      ∃ ok, r.checks = [(some r.written, ok)] ∧ r.written.length = r.fileSize ∧
        s.progressDetails = otaUpdataComplete ∧ (s.jobUpdatePubNotify = true → ok = true)) :
    Sound (Session.next s verified).1 (tell (some r) (Session.next s verified).2) := by
  have hspec := progressUpadteEvent_spec s (s.handle.progress s.documentFields) verified
  have hiff := progress_eq_complete_iff s.handle s.documentFields (by omega) (by omega) (by omega)
  rw [htotal, hfields] at hiff
  rw [Session.next]
  rw [tell_append, tell_request]
  rcases hphase with ⟨hchecks, hhash, hnotify, hfresh⟩ | ⟨ok, hchecks, hwhole, hprogress, hok⟩
  · by_cases hwhole : r.written.length = r.fileSize
    · have hnew : s.handle.progress s.documentFields ≠ s.progressDetails := by
        rw [hiff.mpr hwhole]
        exact (hfresh hwhole).symm
      obtain ⟨hp, hn, htell⟩ := hspec.checked hnew (hiff.mpr hwhole)
      rw [htell, map_some]
      refine ⟨hsmall, .inr ?_, ?_, .checked verified ?_ hwhole hp hspec.retry ?_⟩
      · rw [hspec.fields, hfields]
      · rw [hspec.handle, htotal]
      · rw [hchecks, hhash, List.nil_append]
      · rw [hn]
        exact id
    · obtain ⟨hn, hh, htell⟩ := hspec.quiet (.inr fun h => hwhole (hiff.mp h))
      rw [htell]
      refine ⟨hsmall, .inr ?_, ?_, .loading hchecks (hh.trans hhash) (by omega) (hn.trans hnotify)⟩
      · rw [hspec.fields, hfields]
      · rw [hspec.handle, htotal]
  · have hsame : s.handle.progress s.documentFields = s.progressDetails := by
      rw [hiff.mpr hwhole, hprogress]
    obtain ⟨hn, -, htell⟩ := hspec.quiet (.inl hsame)
    rw [htell]
    refine ⟨hsmall, .inr ?_, ?_, .checked ok hchecks hwhole ((hspec.same hsame).trans hprogress) hspec.retry ?_⟩
    · rw [hspec.fields, hfields]
    · rw [hspec.handle, htotal]
    · rw [hn]
      exact hok

variable {s' : State} {past : Option Record}

/-- A phase is read off the hash, the progress and the two flags. -/
theorem Phase.congr {r' : Record} (h : Phase s r) (hchecks : r'.checks = r.checks)
    (hwritten : r'.written = r.written) (hsize : r'.fileSize = r.fileSize) (hhash : s'.hash = s.hash)
    (hprogress : s'.progressDetails = s.progressDetails) (hretry : s.retryWork = false → s'.retryWork = false)
    (hnotify : s'.jobUpdatePubNotify = true → s.jobUpdatePubNotify = true) : Phase s' r' := by
  cases h with
  | loading checks hash part notify =>
    refine .loading (hchecks.trans checks) ?_ ?_ ?_
    · rw [hhash, hash, hwritten]
    · rw [hwritten, hsize]
      exact part
    · cases hn : s'.jobUpdatePubNotify with
      | false => rfl
      | true => rw [hnotify hn] at notify; cases notify
  | checked ok checks whole progress retry notify =>
    refine .checked ok ?_ ?_ (hprogress.trans progress) (hretry retry) (fun hn => notify (hnotify hn))
    · rw [hchecks, checks, hwritten]
    · rw [hwritten, whole, hsize]

/-- A message keeps the session, whether its block is taken or not. -/
theorem Follows.message (h : Follows s r) (block : Option Block) (verified : Bool)
    (hc : Orderly s (.message block verified)) :
    Sound (updateProgressHandler s block verified).1 (tell (some r) (updateProgressHandler s block verified).2) := by
  have htotal := h.total
  rcases updateProgressHandler_cases s block verified with ⟨-, heq⟩ | ⟨hpos, -, heq⟩ | ⟨b, hpos, htaken, heq⟩
  · rw [heq]
    exact h
  · have hfields : s.documentFields.fileSize = r.fileSize := h.fields.resolve_left hpos
    rw [heq]
    cases h.phase with
    | loading checks hash part notify =>
      exact Follows.next verified h.small hfields (by omega) h.total (by omega)
        (.inl ⟨checks, hash, notify, fun hwhole => absurd hwhole (by omega)⟩)
    | checked ok checks whole progress retry notify =>
      exact Follows.next verified h.small hfields (by omega) h.total (by omega)
        (.inr ⟨ok, checks, whole, progress, notify⟩)
  · have hfields : s.documentFields.fileSize = r.fileSize := h.fields.resolve_left hpos
    have hsmall := h.small
    obtain ⟨hfit, hfresh⟩ := hc b htaken
    rw [heq]
    let r' : Record := { r with written := r.written ++ b.payload }
    have hlen : r'.written.length = r.written.length + b.payload.length := List.length_append
    have htotal' : (installed s b).handle.totalBytesReceived = r'.written.length := by
      show (s.handle.totalBytesReceived + b.payload.length) % 2 ^ 32 = r'.written.length
      rw [hlen, Nat.mod_eq_of_lt (by omega), htotal]
    have hne : r.fileSize ≠ 0 := by omega
    have hle : r'.written.length ≤ r.fileSize := by omega
    refine Follows.next (r := r') verified h.small hfields hne htotal' hle ?_
    cases h.phase with
    | loading checks hash part notify =>
      refine .inl ⟨checks, ?_, notify, fun hwhole => hfresh (by omega) ?_⟩
      · show s.hash.map (· ++ b.payload) = some r'.written
        rw [hash]
        rfl
      · have : r'.written.length = r.fileSize := hwhole
        omega
    | checked ok checks whole progress retry notify =>
      have hempty : b.payload = [] := List.eq_nil_of_length_eq_zero (by omega)
      have hsame : r'.written = r.written := by
        show r.written ++ b.payload = r.written
        rw [hempty, List.append_nil]
      refine .inr ⟨ok, ?_, ?_, progress, notify⟩
      · rw [hsame]
        exact checks
      · rw [hsame]
        exact whole

/-- What a step leaves alone. -/
theorem Sound.frame {past' : Option Record} (h : Sound s past)
    (hpast : past' = past ∨ past' = past.map Record.close) (hhandle : s'.handle = s.handle)
    (hfields : s'.documentFields.fileSize = 0 ∨ s'.documentFields = s.documentFields) (hhash : s'.hash = s.hash)
    (hprogress : s'.progressDetails = s.progressDetails) (hretry : s.retryWork = false → s'.retryWork = false)
    (hnotify : s'.jobUpdatePubNotify = true → s.jobUpdatePubNotify = true) : Sound s' past' := by
  have hzero (hz : s.documentFields.fileSize = 0) : s'.documentFields.fileSize = 0 := by
    rcases hfields with hf | hf
    · exact hf
    · rw [hf, hz]
  cases past with
  | none =>
    obtain rfl : past' = none := by simpa using hpast
    refine ⟨hzero h.1, ?_⟩
    cases hn : s'.jobUpdatePubNotify with
    | false => rfl
    | true => exact absurd (hnotify hn) (by simp [h.2])
  | some r =>
    have hr : ∃ ended, past' = some { r with ended := ended } := by
      rcases hpast with rfl | rfl
      · exact ⟨r.ended, rfl⟩
      · exact ⟨true, rfl⟩
    obtain ⟨ended, rfl⟩ := hr
    refine ⟨h.small, ?_, ?_, h.phase.congr rfl rfl rfl hhash hprogress hretry hnotify⟩
    · rcases hfields with hf | hf
      · exact .inl hf
      · rw [hf]
        exact h.fields
    · rw [hhandle]
      exact h.total

/-- **A step keeps the session.** -/
theorem Effect.sound {e : Event} {outputs : List Output} (heff : Effect s e s' outputs) (h : Sound s past)
    (hc : Orderly s e) : Sound s' (tell past outputs) := by
  cases heff with
  | dropped => exact h.frame (.inl rfl) rfl (.inl rfl) rfl rfl (fun _ => rfl) id
  | refused doc => exact hc.elim
  | started doc pos => exact ⟨hc, .inr rfl, rfl, .loading rfl rfl pos rfl⟩
  | message block verified =>
    cases past with
    | none =>
      rw [updateProgressHandler, if_pos h.1]
      exact h
    | some r => exact Follows.message h block verified hc
  | failed hretry hcount =>
    cases past with
    | none => exact ⟨h.1, rfl⟩
    | some r =>
      refine ⟨h.small, h.fields, h.total, ?_⟩
      -- A session that has been checked does not retry.
      cases h.phase with
      | loading checks hash part notify => exact .loading checks hash part rfl
      | checked ok checks whole progress retry notify =>
        rw [hretry] at retry
        cases retry
  | retried hretry hcount =>
    rw [tell_request]
    exact h.frame (.inl rfl) rfl (.inr rfl) rfl rfl (fun hr => hretry.symm.trans hr) id
  | succeeded hnotify => exact h.frame (.inr rfl) rfl (.inr rfl) rfl rfl id (fun hn => by cases hn)
  | idle => exact h.frame (.inl rfl) rfl (.inr rfl) rfl rfl id id
  | ready => exact h.frame (.inl rfl) rfl (.inr rfl) rfl rfl id id
  | cancelled => exact h.frame (.inr rfl) rfl (.inr rfl) rfl rfl (fun _ => rfl) id
  | kept => exact h.frame (.inl rfl) rfl (.inr rfl) rfl rfl id id
  | stopped => exact h.frame (.inr rfl) rfl (.inr rfl) rfl rfl (fun _ => rfl) id

/-- **A session is complete if its file was received and found good.** In every run of orderly
steps, a session that has received as many bytes as were announced has had its signature
checked, over the bytes that were written; and whatever step follows, it ends the update with
success only if that many bytes have been received and the check found them good. -/
theorem update_completes {events : List Event} {s : State} {trace : Trace}
    (hm : machine.Meets Orderly init events) (hr : machine.run init events = some (s, trace)) :
    (∀ r, session trace = some r → s.handle.totalBytesReceived = r.fileSize →
      ∃ ok, r.checks = [(some r.written, ok)]) ∧
    ∀ e s' outputs, machine.step s e = some (s', outputs) → .event .success ∈ outputs ∨ .otaEnd ∈ outputs →
      ∃ r, session trace = some r ∧ s.handle.totalBytesReceived = r.fileSize ∧
        r.checks = [(some r.written, true)] := by
  have hsound : Sound s (session trace) := machine.run_invariant Orderly (fun past s => Sound s (session past))
    (fun past s e s' o h hc hstep => by
      rw [session_snoc]
      exact (step_effect hstep).sound h hc) ⟨rfl, rfl⟩ hm hr
  refine ⟨fun r hr htotal => ?_, fun e s' outputs hstep hfinal => ?_⟩
  · rw [hr] at hsound
    cases hsound.phase with
    | loading checks hash part notify =>
      rw [hsound.total] at htotal
      omega
    | checked ok checks whole progress retry notify => exact ⟨ok, checks⟩
  · have hnotify : s.jobUpdatePubNotify = true := by
      rcases hfinal with ho | ho
      · exact (step_effect hstep).final_notify ho rfl
      · exact (step_effect hstep).final_notify ho rfl
    cases hsession : session trace with
    | none =>
      rw [hsession] at hsound
      rw [hsound.2] at hnotify
      cases hnotify
    | some r =>
      rw [hsession] at hsound
      cases hsound.phase with
      | loading checks hash part notify =>
        rw [notify] at hnotify
        cases hnotify
      | checked ok checks whole progress retry notify =>
        exact ⟨r, rfl, hsound.total.trans whole, notify hnotify ▸ checks⟩

end Steps

def twoBlocksDoc : Document := ⟨7, 4, by decide⟩

def twoBlocks (n : Fin 2) (verified : Bool) : Event :=
  .message (some ⟨7, (n : Nat), 2, if n = 0 then [1, 2] else [3, 4], by omega⟩) verified

def receivedInTwo : List Event :=
  [.notifyNext (.job twoBlocksDoc (by decide)), .retry, twoBlocks 0 true, twoBlocks 0 true, twoBlocks 1 true]

theorem update_completes_two :
    ∃ s trace, machine.run init receivedInTwo = some (s, trace) ∧
      (∀ r, session trace = some r → s.handle.totalBytesReceived = r.fileSize →
        ∃ ok, r.checks = [(some r.written, ok)]) ∧
      ∀ e s' outputs, machine.step s e = some (s', outputs) → .event .success ∈ outputs ∨ .otaEnd ∈ outputs →
        ∃ r, session trace = some r ∧ s.handle.totalBytesReceived = r.fileSize ∧
          r.checks = [(some r.written, true)] := by
  obtain ⟨⟨s, trace⟩, hr⟩ : ∃ after, machine.run init receivedInTwo = some after :=
    isSome_iff_exists.mp (by decide +kernel)
  exact ⟨s, trace, hr, update_completes (by decide +kernel) hr⟩

def oneBlockDoc : Document := ⟨7, 2, by decide⟩

def oneAfterTheOther : List Event :=
  [.notifyNext (.job oneBlockDoc (by decide)), twoBlocks 0 true, .success,
    .notifyNext (.job oneBlockDoc (by decide)), twoBlocks 0 true]

/-- Its file has been received, and its signature is not checked. -/
theorem second_update_unchecked :
    (machine.run init oneAfterTheOther).map (fun after => (after.1.handle.totalBytesReceived,
      (session after.2).map fun r => (r.fileSize, r.written, r.checks.length))) = some (2, some (2, [1, 2], 0)) := by
  decide +kernel

/-! ### A session that waits has its retry scheduled -/

/-- A step that leaves the retry action where it is needed: while it is scheduled, a notification
brings a job and a message brings the rest of the file. -/
def Steady (s : State) : Event → Prop
  | .notifyNext .none => s.retryWork = false
  | .notifyNext (.unsigned _) => s.retryWork = false
  | .message block _ =>
    (∀ b ∈ taken s block, s.handle.totalBytesReceived + b.payload.length < 2 ^ 32) ∧
    (s.retryWork = true →
      ∃ b ∈ taken s block, s.documentFields.fileSize ≤ s.handle.totalBytesReceived + b.payload.length)
  | _ => True

instance (s : State) : DecidablePred (Steady s)
  | .notifyNext .none => inferInstanceAs (Decidable (s.retryWork = false))
  | .notifyNext (.unsigned _) => inferInstanceAs (Decidable (s.retryWork = false))
  | .notifyNext (.job _ _) => isTrue trivial
  | .message block _ => inferInstanceAs (Decidable (
      (∀ b ∈ taken s block, s.handle.totalBytesReceived + b.payload.length < 2 ^ 32) ∧
      (s.retryWork = true →
        ∃ b ∈ taken s block, s.documentFields.fileSize ≤ s.handle.totalBytesReceived + b.payload.length)))
  | .retry => isTrue trivial
  | .success => isTrue trivial
  | .announce _ => isTrue trivial
  | .stop => isTrue trivial

def Waits (s : State) (past : Option Record) : Prop :=
  ∀ r, past = some r → r.ended = false →
    (s.retryWork = true ∧ s.documentFields.fileSize = r.fileSize) ∨ r.fileSize ≤ s.handle.totalBytesReceived

section Steps
variable {s : State}

/-- A message starts no session and opens none again. -/
theorem tell_next (s : State) (verified : Bool) (past : Option Record) {r' : Record}
    (h : tell past (next s verified).2 = some r') :
    ∃ r, past = some r ∧ r'.fileSize = r.fileSize ∧ (r'.ended = false → r.ended = false) := by
  have hspec := progressUpadteEvent_spec s (s.handle.progress s.documentFields) verified
  rw [next] at h
  rw [tell_append, tell_request] at h
  by_cases hq : s.handle.progress s.documentFields = s.progressDetails ∨
      s.handle.progress s.documentFields ≠ otaUpdataComplete
  · rw [(hspec.quiet hq).2.2] at h
    exact ⟨r', h, rfl, id⟩
  · obtain ⟨hnew, hcomplete⟩ := not_or.mp hq
    rw [(hspec.checked hnew (not_not.mp hcomplete)).2.2] at h
    obtain ⟨r, hr, rfl⟩ := map_eq_some_iff.mp h
    exact ⟨r, hr, rfl, fun hended => (Bool.or_eq_false_iff.mp hended).1⟩

variable {past : Option Record}

theorem Waits.message (h : Waits s past) (block : Option Block) (verified : Bool)
    (hc : Steady s (.message block verified)) :
    Waits (updateProgressHandler s block verified).1 (tell past (updateProgressHandler s block verified).2) := by
  have hhandle (s : State) : (next s verified).1.handle = s.handle :=
    (progressUpadteEvent_spec s (s.handle.progress s.documentFields) verified).handle
  intro r' hr' hopen
  rcases updateProgressHandler_cases s block verified with ⟨-, heq⟩ | ⟨-, htaken, heq⟩ | ⟨b, -, htaken, heq⟩
  · rw [heq] at hr' ⊢
    exact h r' hr' hopen
  · rw [heq] at hr' ⊢
    obtain ⟨r, hr, hsize, hended⟩ := tell_next s verified past hr'
    right
    rw [hsize, hhandle]
    rcases h r hr (hended hopen) with ⟨hretry, -⟩ | hall
    · obtain ⟨b, hb, -⟩ := hc.2 hretry
      rw [htaken] at hb
      cases hb
    · exact hall
  · rw [heq] at hr' ⊢
    obtain ⟨r, hr, hsize, hended⟩ := tell_next _ verified _ hr'
    obtain ⟨r₀, hr₀, rfl⟩ := map_eq_some_iff.mp (show past.map
      (fun r => { r with written := r.written ++ b.payload }) = some r from hr)
    have htotal : (installed s b).handle.totalBytesReceived = s.handle.totalBytesReceived + b.payload.length :=
      Nat.mod_eq_of_lt (hc.1 b htaken)
    right
    rw [hsize, hhandle, htotal]
    rcases h r₀ hr₀ (hended hopen) with ⟨hretry, hfields⟩ | hall
    · obtain ⟨b', hb', hrest⟩ := hc.2 hretry
      obtain rfl : b = b' := Option.some.inj (htaken.symm.trans hb')
      exact hfields ▸ hrest
    · exact Nat.le_add_right_of_le hall

/-- **A step leaves no session waiting for nothing.** -/
theorem Effect.waits {e : Event} {s' : State} {outputs : List Output} (heff : Effect s e s' outputs)
    (h : Waits s past) (hc : Steady s e) : Waits s' (tell past outputs) := by
  have hclosed {s' : State} {past : Option Record} : Waits s' (past.map Record.close) := by
    intro r hr hopen
    obtain ⟨r₀, -, rfl⟩ := map_eq_some_iff.mp hr
    cases hopen
  cases heff with
  | dropped =>
    intro r hr hopen
    rcases h r hr hopen with ⟨hretry, -⟩ | hall
    · exact absurd (hretry.symm.trans hc) (by decide)
    · exact .inr hall
  | refused doc =>
    intro r hr hopen
    rcases h r hr hopen with ⟨hretry, -⟩ | hall
    · exact absurd (hretry.symm.trans hc) (by decide)
    · exact .inr hall
  | started doc pos =>
    intro r hr _
    cases hr
    exact .inl ⟨rfl, rfl⟩
  | message block verified => exact h.message block verified hc
  | failed hretry hcount => exact hclosed
  | retried hretry hcount =>
    rw [tell_request]
    intro r hr hopen
    exact (h r hr hopen).imp_left fun hw => ⟨rfl, hw.2⟩
  | succeeded hnotify => exact hclosed
  | idle => exact h
  | ready => exact h
  | cancelled => exact hclosed
  | kept => exact h
  | stopped => exact hclosed

/-- **A session keeps asking.** In every run of steady steps, a session that has not ended has its
retry action scheduled or its whole file; and as long as bytes are missing, the retry action
asks for the next block or ends the session as failed. -/
theorem update_keeps_asking {events : List Event} {s : State} {trace : Trace}
    (hm : machine.Meets Steady init events) (hr : machine.run init events = some (s, trace)) :
    ∀ r, session trace = some r → r.ended = false →
      (s.retryWork = true ∨ r.fileSize ≤ s.handle.totalBytesReceived) ∧
      (s.handle.totalBytesReceived < r.fileSize → ∃ s' outputs, machine.step s .retry = some (s', outputs) ∧
        (.request s.handle.blockOffset ∈ outputs ∨ .event .failed ∈ outputs)) := by
  have hwaits : Waits s (session trace) := machine.run_invariant Steady (fun past s => Waits s (session past))
    (fun past s e s' o h hc hstep => by
      rw [session_snoc]
      exact (step_effect hstep).waits h hc) (fun r hr => by cases hr) hm hr
  intro r hsession hopen
  have hw := hwaits r hsession hopen
  refine ⟨hw.imp_left And.left, fun hmissing => ?_⟩
  obtain ⟨hretry, hfields⟩ := hw.resolve_right (Nat.not_le_of_lt hmissing)
  refine ⟨(retryTimeout s).1, (retryTimeout s).2, if_pos hretry, ?_⟩
  rw [retryTimeout]
  split
  · simp [failedEvent]
  · left
    rw [request, if_pos (hfields ▸ hmissing)]
    exact List.mem_singleton_self _

end Steps

def lostOnce : List Event := [.notifyNext (.job oneBlockDoc (by decide)), .retry, .announce true]

theorem update_keeps_asking_one :
    ∃ s trace, machine.run init lostOnce = some (s, trace) ∧ ∀ r, session trace = some r → r.ended = false →
      (s.retryWork = true ∨ r.fileSize ≤ s.handle.totalBytesReceived) ∧
      (s.handle.totalBytesReceived < r.fileSize → ∃ s' outputs, machine.step s .retry = some (s', outputs) ∧
        (.request s.handle.blockOffset ∈ outputs ∨ .event .failed ∈ outputs)) := by
  obtain ⟨⟨s, trace⟩, hr⟩ : ∃ after, machine.run init lostOnce = some after :=
    isSome_iff_exists.mp (by decide +kernel)
  exact ⟨s, trace, hr, update_keeps_asking (by decide +kernel) hr⟩

/-- Behind the first of two blocks there is no retry: if the second one is lost, the session, which
has not ended, waits for ever. -/
theorem retry_cancelled_behind_block :
    (machine.run init [.notifyNext (.job twoBlocksDoc (by decide)), twoBlocks 0 true]).map (fun after =>
      (after.1.retryWork, after.1.handle.totalBytesReceived,
        (session after.2).map fun r => (r.fileSize, r.ended))) = some (false, 2, some (4, false)) := by
  decide +kernel

end Qumios.Cloud.Session
