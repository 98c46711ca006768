import Qumios.Ble.OtaGating

/-! The progress of an update, in percent.

The percentage is computed each time the staging buffer is full, in 32 bits, from the bytes
counted so far and the size the request announced; it is reported in one byte. Nothing of this is
checked: an image of no bytes is accepted and divides by zero, from 42 949 673 bytes on the product
does not fit, and the bytes are counted past the announced size. Where the announced size is inside
these limits and no packet brings more than is missing (`Paced`), a report is the share of the
image that is there (`progress_percent`). -/
namespace Qumios.Ble.Ota
open Run List

/-! ### Reports -/

def reportStep (reports : List Nat) : Action → List Nat
  | .callback _ .dataProgress payload => reports ++ payload.map UInt8.toNat
  | .reset => []
  | _ => reports

def reports (acts : List Action) : List Nat := acts.foldl reportStep []

/-- The percentages a packet computes: the bytes counted at that point, and the size they are divided by. -/
def computations (opts : Options) (c : Context) : Event → List (Nat × Nat)
  | .data msgId data flushOk _ =>
    if (c.status ≠ .idle ∧ c.status ≠ .data) ∨ msgId ≠ c.nextSeq then []
    else if data.length + c.otaBufOffset ≥ bufSize then
      let (full, _, taken) := toSink opts flushOk (stage (data.take (bufSize - c.otaBufOffset)) (inSequence msgId c))
      if taken then [(full.otaDownloadFileSize, full.otaFile.fileSize)] else []
    else []
  | _ => []

/-- The condition on a packet that is taken: the announced size is neither zero nor too great for a percentage
in 32 bits, and the packet brings no more than is missing, and no more than the buffer takes before and after it is
written out. -/
def Paced (c : Context) : Event → Prop
  | .data msgId data _ _ =>
    (c.status = .idle ∨ c.status = .data) → msgId = c.nextSeq →
      0 < c.otaFile.fileSize ∧ c.otaFile.fileSize * 100 < 2 ^ 32 ∧
      c.otaDownloadFileSize + data.length ≤ c.otaFile.fileSize ∧ c.otaBufOffset + data.length ≤ 2 * bufSize
  | _ => True

instance (c : Context) : (e : Event) → Decidable (Paced c e)
  | .data msgId data _ _ =>
    inferInstanceAs (Decidable ((c.status = .idle ∨ c.status = .data) → msgId = c.nextSeq →
      0 < c.otaFile.fileSize ∧ c.otaFile.fileSize * 100 < 2 ^ 32 ∧
      c.otaDownloadFileSize + data.length ≤ c.otaFile.fileSize ∧ c.otaBufOffset + data.length ≤ 2 * bufSize))
  | .queryVer .. | .request .. | .verify .. | .timer | .disconnected => isTrue trivial

/-! ### Actions that report nothing -/

def Action.isReport : Action → Bool
  | .callback _ .dataProgress _ => true
  | _ => false

def Quiet (acts : List Action) : Prop := ∀ a ∈ acts, a.isReport = false ∧ a ≠ .reset

theorem reportStep_quiet {a : Action} (h : a.isReport = false ∧ a ≠ .reset) (rs : List Nat) : reportStep rs a = rs := by
  cases a with
  | callback otaType event payload =>
    cases event with
    | dataProgress => cases h.1
    | _ => rfl
  | reset => exact absurd rfl h.2
  | _ => rfl

variable {acts : List Action} {msgId : UInt8} {c c' : Context} {ok r : Bool} {opts : Options} {data : Bytes} {e : Event}

theorem Quiet.foldl (h : Quiet acts) (rs : List Nat) : acts.foldl reportStep rs = rs := by
  induction acts with
  | nil => rfl
  | cons a acts ih =>
    rw [foldl_cons, reportStep_quiet (h a (mem_cons_self ..))]
    exact ih fun b hb => h b (mem_cons_of_mem a hb)

theorem quiet_nil : Quiet [] := fun _ ha => absurd ha not_mem_nil

theorem quiet_one {a : Action} (h : a.isReport = false ∧ a ≠ .reset) : Quiet [a] := by
  intro b hb
  rw [mem_singleton.mp hb]
  exact h

variable {payload : Bytes} {flushOk lastOk : Bool} {otaType : UInt8} {rs : List Nat}

theorem quiet_post {cmd comCode : UInt8} : Quiet [.post msgId cmd comCode payload] :=
  quiet_one ⟨rfl, Action.noConfusion⟩

theorem Quiet.append {a b : List Action} (ha : Quiet a) (hb : Quiet b) : Quiet (a ++ b) :=
  fun x hx => (mem_append.mp hx).elim (ha x) (hb x)

theorem writeStaged_quiet (h : writeStaged ok c = (c', acts, r)) : Quiet acts := by
  obtain ⟨-, rfl, -⟩ := writeStaged_cases h
  exact quiet_one ⟨rfl, Action.noConfusion⟩

theorem toSink_quiet (h : toSink opts ok c = (c', acts, r)) : Quiet acts := by
  rcases toSink_cases h with ⟨-, -, -, rfl⟩ | ⟨-, hwrite⟩ | ⟨-, -, -, -, rfl⟩
  · split
    · exact quiet_one ⟨rfl, Action.noConfusion⟩
    · exact quiet_nil
  · exact writeStaged_quiet hwrite
  · exact quiet_nil

theorem loopReply_quiet (h : loopReply opts msgId c = (c', acts)) : Quiet acts := by
  rcases (loopReply_cases h).2 with rfl | rfl | rfl
  · exact quiet_nil
  · exact quiet_one ⟨rfl, Action.noConfusion⟩
  · exact quiet_post

theorem lastPackage_quiet (h : lastPackage ok msgId c = (c', acts, r)) : Quiet acts := by
  rcases lastPackage_cases h with ⟨-, -, rfl, -⟩ | ⟨-, ⟨-, -, after, written, hwrite, hcase⟩ |
    ⟨-, -, ⟨-, -, rfl⟩ | ⟨-, rfl⟩⟩⟩
  · exact quiet_nil
  · rcases hcase with ⟨-, -, rfl⟩ | ⟨-, -, rfl⟩
    · exact writeStaged_quiet hwrite
    · exact (writeStaged_quiet hwrite).append quiet_post
  · exact quiet_post
  · exact quiet_nil

/-! ### A packet -/

/-- The limits of `Paced`, for a packet of so many bytes. -/
structure Limits (c : Context) (n : Nat) : Prop where
  pos : 0 < c.otaFile.fileSize
  fits : c.otaFile.fileSize * 100 < 2 ^ 32
  missing : c.otaDownloadFileSize + n ≤ c.otaFile.fileSize

theorem stage_download (h : Limits c data.length) :
    (stage data c).otaDownloadFileSize = c.otaDownloadFileSize + data.length := by
  have hfits := h.fits
  have hmissing := h.missing
  exact Nat.mod_eq_of_lt (by omega)

theorem percent_eq (h : Limits c 0) :
    (percent c).toNat = c.otaDownloadFileSize * 100 / c.otaFile.fileSize ∧
      c.otaDownloadFileSize * 100 / c.otaFile.fileSize ≤ 100 := by
  have hfits := h.fits
  have hmissing := h.missing
  have hshare : c.otaDownloadFileSize * 100 / c.otaFile.fileSize ≤ 100 :=
    Nat.div_le_of_le_mul (Nat.mul_le_mul_right 100 hmissing)
  refine ⟨?_, hshare⟩
  rw [percent, UInt8.toNat_ofNat', Nat.mod_eq_of_lt (show c.otaDownloadFileSize * 100 < 2 ^ 32 by omega)]
  exact Nat.mod_eq_of_lt (by omega)

theorem toSink_limits {full : Context} {written : List Action} {n : Nat} (h : Limits c data.length)
    (hsink : toSink opts ok (stage (data.take n) c) = (full, written, r)) :
    full.otaFile = c.otaFile ∧ Limits full (data.drop n).length ∧
      c.otaDownloadFileSize ≤ full.otaDownloadFileSize := by
  have hsum : (data.take n).length + (data.drop n).length = data.length := by
    rw [← length_append, take_append_drop]
  have hmissing := h.missing
  have htaken : Limits c (data.take n).length := ⟨h.pos, h.fits, by omega⟩
  have hdown := stage_download htaken
  rw [toSink_frame hsink]
  exact ⟨rfl, ⟨h.pos, h.fits, by simp only [stage]; omega⟩, by simp only [hdown]; omega⟩

/-- A packet counts its bytes, and reports the share of the image that is there at some point on the way. -/
structure Advances (c c' : Context) (acts : List Action) : Prop where
  file : c'.otaFile = c.otaFile
  counted : c.otaDownloadFileSize ≤ c'.otaDownloadFileSize
  reported : Quiet acts ∨ ∃ d, c.otaDownloadFileSize ≤ d ∧ d ≤ c'.otaDownloadFileSize ∧
    ∀ rs, acts.foldl reportStep rs = rs ++ [d * 100 / c.otaFile.fileSize]

theorem Advances.append {more : List Action} (h : Advances c c' acts) (hmore : Quiet more) :
    Advances c c' (acts ++ more) := by
  refine ⟨h.file, h.counted, ?_⟩
  obtain hquiet | ⟨d, hlo, hhi, hreport⟩ := h.reported
  · exact .inl (hquiet.append hmore)
  · refine .inr ⟨d, hlo, hhi, fun rs => ?_⟩
    rw [foldl_append, hreport, hmore.foldl]

theorem stagePacket_advances (hlimits : Limits c data.length) (h : stagePacket opts ok data c = some (c', acts, r)) :
    Advances c c' acts := by
  rcases stagePacket_cases h with ⟨-, rfl, rfl, -⟩ | ⟨-, full, written, hsink, hcase⟩
  · refine ⟨rfl, ?_, .inl quiet_nil⟩
    rw [stage_download hlimits]
    omega
  · obtain ⟨hfile, hfull, hcounted⟩ := toSink_limits hlimits hsink
    have hwritten := toSink_quiet hsink
    rcases hcase with ⟨-, rfl, rfl⟩ | ⟨-, -, -, rfl, rfl⟩
    · exact ⟨hfile, hcounted, .inl hwritten⟩
    · have hdown := stage_download (c := { full with otaDownloadPercent := percent full, otaBufOffset := 0 })
        ⟨hfull.pos, hfull.fits, hfull.missing⟩
      refine ⟨hfile, by rw [hdown]; exact hcounted.trans (Nat.le_add_right _ _), ?_⟩
      split
      · refine .inr ⟨full.otaDownloadFileSize, hcounted, by rw [hdown]; exact Nat.le_add_right _ _, fun rs => ?_⟩
        rw [foldl_append, hwritten.foldl, ← hfile,
          ← (percent_eq ⟨hfull.pos, hfull.fits, (Nat.le_add_right _ _).trans hfull.missing⟩).1]
        rfl
      · exact .inl (hwritten.append quiet_nil)

theorem acceptData_advances (hlimits : Limits c data.length)
    (h : acceptData opts msgId data flushOk lastOk c = some (c', acts, r)) : Advances c c' acts := by
  have hlimits' : Limits (inSequence msgId c) data.length := ⟨hlimits.pos, hlimits.fits, hlimits.missing⟩
  rcases acceptData_cases h with ⟨-, hstage⟩ | ⟨staged, staging, replied, reply, last, hstage, hreply, hlast, rfl⟩
  · have hadv := stagePacket_advances hlimits' hstage
    exact ⟨hadv.file, hadv.counted, hadv.reported⟩
  · have hadv := stagePacket_advances hlimits' hstage
    have hmore := (hadv.append (loopReply_quiet hreply)).append (lastPackage_quiet hlast)
    rw [lastPackage_frame hlast, (loopReply_cases hreply).1]
    exact ⟨hmore.file, hmore.counted, hmore.reported⟩

/-! ### Computations -/

/-- A packet computes a percentage when it fills the buffer and the sink takes it. -/
theorem mem_computations {x : Nat × Nat} :
    x ∈ computations opts c (.data msgId data flushOk lastOk) ↔
      (c.status = .idle ∨ c.status = .data) ∧ msgId = c.nextSeq ∧ bufSize ≤ data.length + c.otaBufOffset ∧
      ∃ full written, toSink opts flushOk (stage (data.take (bufSize - c.otaBufOffset)) (inSequence msgId c)) =
        (full, written, true) ∧ x = (full.otaDownloadFileSize, full.otaFile.fileSize) := by
  obtain ⟨full, written, r, hsink⟩ : ∃ full written r,
      toSink opts flushOk (stage (data.take (bufSize - c.otaBufOffset)) (inSequence msgId c)) = (full, written, r) :=
    ⟨_, _, _, rfl⟩
  simp only [computations, hsink]
  by_cases htaken : (c.status ≠ .idle ∧ c.status ≠ .data) ∨ msgId ≠ c.nextSeq
  · rw [if_pos htaken]
    refine iff_of_false not_mem_nil fun h => ?_
    rcases htaken with hoff | hseq
    · exact h.1.elim hoff.1 hoff.2
    · exact hseq h.2.1
  · have hon := htaken
    rw [not_or, not_and_or, not_not, not_not, not_not] at hon
    rw [if_neg htaken]
    by_cases hfull : data.length + c.otaBufOffset ≥ bufSize
    · rw [if_pos hfull]
      cases r with
      | true =>
        rw [if_pos rfl, mem_singleton]
        constructor
        · intro hx
          exact ⟨hon.1, hon.2, hfull, full, written, rfl, hx⟩
        · rintro ⟨-, -, -, full', written', heq, rfl⟩
          rw [(Prod.mk.inj heq).1]
      | false =>
        refine iff_of_false not_mem_nil ?_
        rintro ⟨-, -, -, full', written', heq, -⟩
        cases heq
    · rw [if_neg hfull]
      exact iff_of_false not_mem_nil fun h => hfull h.2.2.1

/-- Inside the limits a packet computes with a size that is not zero, a product of 32 bits, and no more than the
image has. -/
theorem computations_limits (hpaced : Paced c e) :
    ∀ x ∈ computations opts c e, x.2 ≠ 0 ∧ x.1 * 100 < 2 ^ 32 ∧ x.1 * 100 / x.2 ≤ 100 := by
  intro x hx
  cases e with
  | data msgId data flushOk lastOk =>
    obtain ⟨hon, hseq, -, full, written, hsink, rfl⟩ := mem_computations.mp hx
    obtain ⟨hpos, hfits, hmissing, -⟩ := hpaced hon hseq
    obtain ⟨-, hfull, -⟩ := toSink_limits (c := inSequence msgId c) ⟨hpos, hfits, hmissing⟩ hsink
    have hfits' := hfull.fits
    have hmissing' := (Nat.le_add_right _ _).trans hfull.missing
    exact ⟨Nat.pos_iff_ne_zero.mp hfull.pos, by omega, (percent_eq ⟨hfull.pos, hfits', hmissing'⟩).2⟩
  | queryVer | request | verify | timer | disconnected => cases hx

theorem Quiet.not_report (h : Quiet acts) : .callback otaType .dataProgress payload ∉ acts :=
  fun hmem => by cases (h _ hmem).1

/-- What is reported is what was computed. -/
theorem dispatch_reports (h : dispatch opts c e = some (c', acts))
    (hreport : .callback otaType .dataProgress payload ∈ acts) :
    ∃ x ∈ computations opts c e, payload = [UInt8.ofNat (x.1 * 100 % 2 ^ 32 / x.2)] := by
  obtain ⟨msgId, data, flushOk, lastOk, rfl⟩ | he := e.data_or
  case inr => cases dispatch_ofData h he _ hreport
  rcases dispatch_data_cases h with ⟨-, -, rfl⟩ | ⟨hon, ⟨-, -, rfl⟩ | ⟨hseq, taken, did, r, haccept, hcase⟩⟩
  · cases hreport
  · exact absurd hreport quiet_post.not_report
  have hdid : .callback otaType .dataProgress payload ∈ did := by
    rcases hcase with ⟨-, -, rfl⟩ | ⟨-, -, rfl⟩
    · exact hreport
    · refine (mem_append.mp hreport).resolve_right (Quiet.not_report ?_)
      exact (quiet_one (a := .flashError) ⟨rfl, Action.noConfusion⟩).append quiet_post
  have hstaging : ∃ staged staging r', stagePacket opts flushOk data (inSequence msgId c) = some (staged, staging, r') ∧
      .callback otaType .dataProgress payload ∈ staging := by
    rcases acceptData_cases haccept with ⟨-, hstage⟩ | ⟨staged, staging, _, _, _, hstage, hreply, hlast, rfl⟩
    · exact ⟨_, _, _, hstage, hdid⟩
    · refine ⟨staged, staging, _, hstage, ?_⟩
      rw [append_assoc] at hdid
      exact (mem_append.mp hdid).resolve_right
        ((loopReply_quiet hreply).append (lastPackage_quiet hlast)).not_report
  obtain ⟨staged, staging, r', hstage, hmem⟩ := hstaging
  rcases stagePacket_cases hstage with ⟨-, -, rfl, -⟩ | ⟨hfull, full, written, hsink, ⟨-, -, rfl⟩ | ⟨rfl, -, -, -, rfl⟩⟩
  · cases hmem
  · exact absurd hmem (toSink_quiet hsink).not_report
  · have hprogress := (mem_append.mp hmem).resolve_left (toSink_quiet hsink).not_report
    split at hprogress
    · refine ⟨_, mem_computations.mpr ⟨hon, hseq, hfull, full, written, hsink, rfl⟩, ?_⟩
      exact (Action.callback.inj (mem_singleton.mp hprogress)).2.2
    · cases hprogress

/-! ### Sessions -/

/-- What was reported in the session never went down, and is no more than the share that is there. -/
structure Steady (rs : List Nat) (c : Context) : Prop where
  sorted : rs.Pairwise (· ≤ ·)
  bound : ∀ r ∈ rs, r ≤ c.otaDownloadFileSize * 100 / c.otaFile.fileSize

theorem Steady.restart (c : Context) : Steady [] c := ⟨.nil, fun _ hr => absurd hr not_mem_nil⟩

theorem Steady.same (h : Steady rs c) (hfile : c'.otaFile = c.otaFile)
    (hdown : c'.otaDownloadFileSize = c.otaDownloadFileSize) : Steady rs c' :=
  ⟨h.sorted, by rw [hfile, hdown]; exact h.bound⟩

theorem Steady.advance (h : Steady rs c) (hadv : Advances c c' acts) : Steady (acts.foldl reportStep rs) c' := by
  have hshare {a b : Nat} (hab : a ≤ b) : a * 100 / c.otaFile.fileSize ≤ b * 100 / c.otaFile.fileSize :=
    Nat.div_le_div_right (Nat.mul_le_mul_right 100 hab)
  obtain hquiet | ⟨d, hlo, hhi, hreport⟩ := hadv.reported
  · rw [hquiet.foldl]
    refine ⟨h.sorted, fun r hr => ?_⟩
    rw [hadv.file]
    exact (h.bound r hr).trans (hshare hadv.counted)
  · rw [hreport]
    refine ⟨pairwise_append.mpr ⟨h.sorted, pairwise_singleton _ _, fun r hr p hp => ?_⟩, ?_⟩
    · rw [mem_singleton.mp hp]
      exact (h.bound r hr).trans (hshare hlo)
    · rw [hadv.file]
      exact forall_snoc (fun r hr => (h.bound r hr).trans (hshare hadv.counted)) (hshare hhi)

/-- Actions that are not a packet's end the session or leave its reports. -/
theorem foldl_ofData (h : ∀ a ∈ acts, a.ofData = false) (rs : List Nat) :
    acts.foldl reportStep rs = if .reset ∈ acts then [] else rs := by
  induction acts generalizing rs with
  | nil => rfl
  | cons a acts ih =>
    rw [foldl_cons, ih fun b hb => h b (mem_cons_of_mem a hb)]
    by_cases ha : a = .reset
    · subst ha
      split <;> rfl
    · have hquiet : a.isReport = false := by
        have hdata := h a (mem_cons_self ..)
        cases a with
        | callback otaType event payload => cases event <;> first | rfl | cases hdata
        | _ => rfl
      simp only [reportStep_quiet ⟨hquiet, ha⟩, mem_cons, Ne.symm ha, false_or]

theorem dispatch_same (h : dispatch opts c e = some (c', acts))
    (he : ∀ msgId data flushOk lastOk, e ≠ .data msgId data flushOk lastOk) (hreset : Action.reset ∉ acts) :
    c'.otaFile = c.otaFile ∧ c'.otaDownloadFileSize = c.otaDownloadFileSize := by
  rcases dispatch_cases h with ⟨_, _, _, _, rfl⟩ | ⟨_, _, _, _, rfl⟩ | ⟨-, hmem⟩ | ⟨-, ⟨-, rfl⟩ | ⟨_, rfl⟩⟩
  · cases h
    simp at hreset
  · exact absurd rfl (he _ _ _ _)
  · exact absurd hmem hreset
  · exact ⟨rfl, rfl⟩
  · exact ⟨rfl, rfl⟩

/-- **One step** of a paced session. -/
theorem Steady.dispatch (h : Steady rs c) (hpaced : Paced c e) (hd : dispatch opts c e = some (c', acts)) :
    Steady (acts.foldl reportStep rs) c' := by
  obtain ⟨msgId, data, flushOk, lastOk, rfl⟩ | he := e.data_or
  case inr =>
    rw [foldl_ofData (dispatch_ofData hd he)]
    split
    · exact .restart c'
    · next hreset =>
      obtain ⟨hfile, hdown⟩ := dispatch_same hd he hreset
      exact h.same hfile hdown
  rcases dispatch_data_cases hd with ⟨-, rfl, rfl⟩ | ⟨hon, ⟨-, rfl, rfl⟩ | ⟨hseq, taken, did, r, haccept, hcase⟩⟩
  · exact h
  · exact h.same rfl rfl
  obtain ⟨hpos, hfits, hmissing, -⟩ := hpaced hon hseq
  have hadv := acceptData_advances ⟨hpos, hfits, hmissing⟩ haccept
  rcases hcase with ⟨-, rfl, rfl⟩ | ⟨-, rfl, rfl⟩
  · exact h.advance hadv
  · have hafter : Quiet [.flashError, dataRsp msgId Com.errSystem taken] :=
      (quiet_one (a := .flashError) ⟨rfl, Action.noConfusion⟩).append quiet_post
    exact (h.advance (hadv.append hafter)).same rfl rfl

/-- **The progress is a percentage** in every run whose packets are paced: the next packet, whatever it is, divides
by a size that is not zero and multiplies inside 32 bits; what it reports is the floor of the share of the image
that is there, at most a hundred; and within a session the reports do not go down. -/
theorem progress_percent (opts : Options) (bleVer mcuVer : Ver) (otaCb : Bool) (events : List Event) (c : Context)
    (trace : List (Event × Shown)) (hpaced : (machine opts).Meets Paced (init bleVer mcuVer otaCb) events)
    (hrun : (machine opts).run (init bleVer mcuVer otaCb) events = some (c, trace)) :
    (reports (actions trace)).Pairwise (· ≤ ·) ∧ ∀ e, Paced c e →
      (∀ x ∈ computations opts c e, x.2 ≠ 0 ∧ x.1 * 100 < 2 ^ 32) ∧
      ∀ c' acts, dispatch opts c e = some (c', acts) → ∀ otaType payload,
        .callback otaType .dataProgress payload ∈ acts → ∃ x ∈ computations opts c e, ∃ percent : UInt8,
          payload = [percent] ∧ percent.toNat = x.1 * 100 / x.2 ∧ percent.toNat ≤ 100 := by
  have hsteady := (machine opts).run_invariant Paced (fun past c => Steady (reports (actions past)) c)
    (fun past c e c' o hc hp hstep => ?_) (Steady.restart _) hpaced hrun
  · refine ⟨hsteady.sorted, fun e he => ⟨fun x hx => ?_, fun c' acts hd otaType payload hreport => ?_⟩⟩
    · obtain ⟨hne, hfits, -⟩ := computations_limits he x hx
      exact ⟨hne, hfits⟩
    · obtain ⟨x, hx, hpayload⟩ := dispatch_reports hd hreport
      obtain ⟨-, hfits, hshare⟩ := computations_limits he x hx
      rw [Nat.mod_eq_of_lt hfits] at hpayload
      have hbyte : (UInt8.ofNat (x.1 * 100 / x.2)).toNat = x.1 * 100 / x.2 := by
        exact Nat.mod_eq_of_lt (by omega)
      exact ⟨x, hx, _, hpayload, hbyte, by rw [hbyte]; exact hshare⟩
  · have happend : actions (past ++ [(e, o)]) = actions past ++ o.acts := by
      simp [actions]
    rw [happend, reports, foldl_append]
    exact hc.dispatch hp (machine_step hstep).2

def requestOf (size : Nat) : Event :=
  .request 0 ([typeBle, 1, 0, 0, hashCrc32, 1, 2, 3, 4] ++ be32 size) Reason.normal true

def fullPacket (msgId : UInt8) : Event := .data msgId (List.replicate 256 7) true true

/-- Half of the image, and all of it. -/
theorem progress_percent_halves :
    ∃ c trace, (machine bothImages).run (init {} {} true) [requestOf 512, fullPacket 0, fullPacket 1] =
        some (c, trace) ∧ reports (actions trace) = [50, 100] ∧
      ((reports (actions trace)).Pairwise (· ≤ ·) ∧ ∀ e, Paced c e →
        (∀ x ∈ computations bothImages c e, x.2 ≠ 0 ∧ x.1 * 100 < 2 ^ 32) ∧
        ∀ c' acts, dispatch bothImages c e = some (c', acts) → ∀ otaType payload,
          .callback otaType .dataProgress payload ∈ acts → ∃ x ∈ computations bothImages c e, ∃ percent : UInt8,
            payload = [percent] ∧ percent.toNat = x.1 * 100 / x.2 ∧ percent.toNat ≤ 100) := by
  have hreports : ((machine bothImages).run (init {} {} true) [requestOf 512, fullPacket 0, fullPacket 1]).map
      (fun r => reports (actions r.2)) = some [50, 100] := by decide +kernel
  obtain ⟨⟨c, trace⟩, hrun, hreports⟩ := Option.map_eq_some_iff.mp hreports
  exact ⟨c, trace, hrun, hreports, progress_percent bothImages {} {} true _ c trace (by decide +kernel) hrun⟩

/-- An image of no bytes is accepted, and its first full buffer divides by zero. An image of four bytes is counted
past its end: the share is 6400 percent, of which one byte is reported. -/
theorem progress_no_percentage :
    (∃ cfg : Config, 256 ≤ cfg.maxPayloadSize ∧ ∃ c trace,
      (machine bothImages).run (init {} {} true) [requestOf 0] = some (c, trace) ∧
        .request true Reason.normal true ∈ actions trace ∧
        (256, 0) ∈ computations bothImages c (fullPacket 0)) ∧
    ∃ c trace, (machine bothImages).run (init {} {} true) [requestOf 4, fullPacket 0] = some (c, trace) ∧
      c.otaDownloadFileSize * 100 / c.otaFile.fileSize = 6400 ∧ reports (actions trace) = [0] := by
  constructor
  · have hzero : ((machine bothImages).run (init {} {} true) [requestOf 0]).map (fun r =>
        (decide (.request true Reason.normal true ∈ actions r.2), computations bothImages r.1 (fullPacket 0))) =
          some (true, [(256, 0)]) := by decide +kernel
    obtain ⟨⟨c, trace⟩, hrun, hvalues⟩ := Option.map_eq_some_iff.mp hzero
    obtain ⟨hrequest, hdivides⟩ := Prod.mk.inj hvalues
    refine ⟨⟨false, true, 20, gattMtuSizeDefault, by decide, .inl rfl⟩, by decide, c, trace, hrun,
      of_decide_eq_true hrequest, ?_⟩
    rw [hdivides]
    exact mem_singleton_self _
  · have hfour : ((machine bothImages).run (init {} {} true) [requestOf 4, fullPacket 0]).map (fun r =>
        (r.1.otaDownloadFileSize * 100 / r.1.otaFile.fileSize, reports (actions r.2))) = some (6400, [0]) := by
      decide +kernel
    obtain ⟨⟨c, trace⟩, hrun, hvalues⟩ := Option.map_eq_some_iff.mp hfour
    exact ⟨c, trace, hrun, (Prod.mk.inj hvalues).1, (Prod.mk.inj hvalues).2⟩

end Qumios.Ble.Ota
