import Qumios.Ble.OtaGating

/-! What the sink has received.

Inside a session every accepted byte is in the sink or in the staging buffer, in
order, and when the image is ready to be verified all of it is in the sink
(`image_integrity`), as long as each accepted packet meets `Sound`: the flash
writes it causes succeed, an MCU image has a callback to go to, and the packet
that completes an MCU image leaves nothing staged — the source flushes what is
staged at the end of a BLE image only. -/
namespace Qumios.Ble.Ota
open Buffer Run List

/-! ### The session, read off the trace -/

def Action.sinkBytes : Action → Bytes
  | .flashWrite _ bytes true => bytes
  | .callback _ .data bytes => bytes
  | _ => []

def received (acts : List Action) : Bytes := acts.flatMap Action.sinkBytes

def acceptedBytes : Event × Shown → Bytes
  | (.data msgId data _ _, o) =>
    if (o.before.status = .idle ∨ o.before.status = .data) ∧ msgId = o.before.nextSeq then data else []
  | _ => []

def accepted (trace : List (Event × Shown)) : Bytes := trace.flatMap acceptedBytes

/-- The condition on a packet that is taken, from the context it meets. -/
def Sound (opts : Options) (c : Context) : Event → Prop
  | .data msgId data flushOk lastOk =>
    (c.status = .idle ∨ c.status = .data) → msgId = c.nextSeq →
      c.otaDownloadFileSize + data.length < 2 ^ 32 ∧
      (c.otaFile.otaType = typeBle → flushOk = true ∧ lastOk = true) ∧
      (c.otaFile.otaType = typeMcu →
        (bufSize ≤ data.length + c.otaBufOffset → opts.mcuOta = true ∧ c.otaCb = true) ∧
        (c.otaFile.fileSize ≤ c.otaDownloadFileSize + data.length →
          data.length + c.otaBufOffset = 0 ∨ data.length + c.otaBufOffset = bufSize))
  | _ => True

instance (opts : Options) (c : Context) (e : Event) : Decidable (Sound opts c e) := by
  cases e <;> unfold Sound <;> infer_instance

@[simp] theorem received_append (a b : List Action) : received (a ++ b) = received a ++ received b :=
  flatMap_append

variable {acts : List Action} {c c' : Context} {data sink taken : Bytes} {ok r : Bool} {opts : Options} {msgId : UInt8}

theorem received_eq_nil (h : ∀ a ∈ acts, a.isSink = false) : received acts = [] := by
  refine flatMap_eq_nil_iff.mpr fun a ha => ?_
  have hsink := h a ha
  cases a with
  | flashWrite addr bytes ok => cases hsink
  | callback otaType event payload =>
    cases event with
    | data => cases hsink
    | _ => rfl
  | _ => rfl

/-! ### The staging buffer -/

/-- The staging buffer keeps its size, and its offset stays inside. -/
structure Buffered (c : Context) : Prop where
  size : c.otaDataBuf.length = bufSize
  offset : c.otaBufOffset ≤ bufSize

theorem stage_buffered (h : Buffered c) (hroom : c.otaBufOffset + data.length ≤ bufSize) :
    Buffered (stage data c) where
  size := by
    show (splice c.otaDataBuf c.otaBufOffset data).length = bufSize
    rw [length_splice _ _ _ (by rw [h.size]; exact hroom), h.size]
  offset := hroom

theorem toSink_buffered (hc : Buffered c) (h : toSink opts ok c = (c', acts, r)) : Buffered c' := by
  rw [toSink_frame h]
  exact ⟨hc.size, hc.offset⟩

theorem stagePacket_buffered (hc : Buffered c) (h : stagePacket opts ok data c = some (c', acts, r)) : Buffered c' := by
  have hoff := hc.offset
  rcases stagePacket_cases h with ⟨hroom, rfl, -, -⟩ | ⟨hfull, full, written, hsink, hcase⟩
  · exact stage_buffered hc (by omega)
  · have hstaged := toSink_buffered (stage_buffered hc (by rw [length_take]; omega)) hsink
    rcases hcase with ⟨-, rfl, -⟩ | ⟨-, -, hrest, rfl, -⟩
    · exact hstaged
    · have hempty : Buffered { full with otaDownloadPercent := percent full, otaBufOffset := 0 } :=
        ⟨hstaged.size, Nat.zero_le _⟩
      refine stage_buffered hempty ?_
      show 0 + _ ≤ bufSize
      rw [length_drop]
      omega

variable {flushOk lastOk posted : Bool} {answer : Int}

theorem acceptData_buffered (hc : Buffered c) (h : acceptData opts msgId data flushOk lastOk c = some (c', acts, r)) :
    Buffered c' := by
  have hseq : Buffered (inSequence msgId c) := ⟨hc.size, hc.offset⟩
  rcases acceptData_cases h with ⟨-, hstage⟩ | ⟨staged, staging, replied, reply, last, hstage, hreply, hlast, -⟩
  · exact stagePacket_buffered hseq hstage
  · have hst := stagePacket_buffered hseq hstage
    rw [lastPackage_frame hlast, (loopReply_cases hreply).1]
    exact ⟨hst.size, hst.offset⟩

theorem reqHandle_buffered (hc : Buffered c) : Buffered (reqHandle opts msgId data answer posted c).1 := by
  unfold reqHandle
  split
  · exact hc
  · dsimp only
    split <;> exact ⟨hc.size, hc.offset⟩

theorem dispatch_buffered {e : Event} (hc : Buffered c) (h : dispatch opts c e = some (c', acts)) : Buffered c' := by
  rcases dispatch_cases h with ⟨msgId, data, answer, posted, rfl⟩ | ⟨msgId, data, flushOk, lastOk, rfl⟩ | ⟨rfl, -⟩ |
    ⟨-, ⟨-, rfl⟩ | ⟨count, rfl⟩⟩
  · cases h
    exact reqHandle_buffered ⟨hc.size, Nat.zero_le _⟩
  · rcases dispatch_data_cases h with ⟨-, rfl, -⟩ | ⟨-, ⟨-, rfl, -⟩ | ⟨-, taken, did, r, haccept, hcase⟩⟩
    · exact hc
    · exact ⟨hc.size, hc.offset⟩
    · have htaken := acceptData_buffered hc haccept
      rcases hcase with ⟨-, rfl, -⟩ | ⟨-, rfl, -⟩
      · exact htaken
      · exact ⟨htaken.size, htaken.offset⟩
  · exact ⟨hc.size, Nat.zero_le _⟩
  · exact ⟨hc.size, hc.offset⟩
  · exact ⟨hc.size, hc.offset⟩

theorem run_buffered {bleVer mcuVer : Ver} {otaCb : Bool} {events : List Event} {trace : List (Event × Shown)}
    (hrun : (machine opts).run (init bleVer mcuVer otaCb) events = some (c, trace)) : Buffered c :=
  (machine opts).run_invariant_always (fun _ c => Buffered c)
    (fun _ _ _ _ _ hc hs => dispatch_buffered hc (machine_step hs).2)
    ⟨length_replicate, Nat.zero_le _⟩ hrun

/-! ### Sink and staging -/

/-- Everything accepted is in the sink or staged, in order. -/
structure Staging (sink taken : Bytes) (c : Context) : Prop extends Buffered c where
  image : c.otaFile.otaType = typeBle ∨ c.otaFile.otaType = typeMcu
  download : c.otaDownloadFileSize = taken.length
  addr : c.otaFile.otaType = typeBle → c.offsetAddr = sink.length
  split : sink ++ c.staged = taken

theorem Staging.frame (h : Staging sink taken c) (status : Status) (nextSeq count msgId : UInt8) :
    Staging sink taken { c with status := status, nextSeq := nextSeq, otaTimeoutCnt := count, msgId := msgId } :=
  ⟨⟨h.size, h.offset⟩, h.image, h.download, h.addr, h.split⟩

theorem stage_staged (h : Buffered c) : (stage data c).staged = c.staged ++ data := by
  show (splice c.otaDataBuf c.otaBufOffset data).take (c.otaBufOffset + data.length) = _
  rw [take_splice _ _ _ (by rw [h.size]; exact h.offset)]
  rfl

section
variable (h : Staging sink taken c)
include h

theorem stage_staging (data : Bytes) (hroom : c.otaBufOffset + data.length ≤ bufSize)
    (hsize : c.otaDownloadFileSize + data.length < 2 ^ 32) :
    Staging sink (taken ++ data) (stage data c) where
  toBuffered := stage_buffered h.toBuffered hroom
  image := h.image
  download := by
    show (c.otaDownloadFileSize + data.length) % 2 ^ 32 = _
    rw [Nat.mod_eq_of_lt hsize, h.download, length_append]
  addr := h.addr
  split := by rw [stage_staged h.toBuffered, ← append_assoc, h.split]

theorem writeStaged_staging (hble : c.otaFile.otaType = typeBle) (hsize : taken.length < 2 ^ 32)
    (hw : writeStaged true c = (c', acts, r)) :
    r = true ∧ sink ++ received acts = taken ∧ c' = { c with offsetAddr := taken.length } := by
  obtain ⟨rfl, rfl, hr⟩ := writeStaged_cases hw
  have hend : c.offsetAddr + c.staged.length = taken.length := by
    rw [h.addr hble, ← h.split, length_append]
  rw [hend, Nat.mod_eq_of_lt hsize] at hr ⊢
  exact ⟨hr.mpr ⟨rfl, h.download.symm⟩, by simpa [received, Action.sinkBytes] using h.split, rfl⟩

/-- A full buffer is handed on whole. -/
theorem toSink_staging (hok : c.otaFile.otaType = typeBle → ok = true)
    (hcb : c.otaFile.otaType = typeMcu → opts.mcuOta = true ∧ c.otaCb = true) (hsize : taken.length < 2 ^ 32)
    (hs : toSink opts ok c = (c', acts, r)) :
    r = true ∧ sink ++ received acts = taken ∧ (c.otaFile.otaType = typeBle → c'.offsetAddr = taken.length) := by
  rcases toSink_cases hs with ⟨hmcu, rfl, rfl, rfl⟩ | ⟨hble, hwrite⟩ | ⟨hmcu, hble, -⟩
  · rw [if_pos (hcb hmcu)]
    refine ⟨rfl, by simpa [received, Action.sinkBytes] using h.split, fun hble => ?_⟩
    rw [hmcu] at hble
    exact absurd hble (by decide)
  · rw [hok hble] at hwrite
    obtain ⟨hr, hsink, rfl⟩ := writeStaged_staging h hble hsize hwrite
    exact ⟨hr, hsink, fun _ => rfl⟩
  · exact absurd h.image (not_or.mpr ⟨hble, hmcu⟩)

/-- A packet on its way into the buffer: nothing is lost, and what stays staged is what
is over a full buffer. -/
theorem stagePacket_staging (hsize : c.otaDownloadFileSize + data.length < 2 ^ 32)
    (hok : c.otaFile.otaType = typeBle → ok = true)
    (hcb : c.otaFile.otaType = typeMcu → bufSize ≤ data.length + c.otaBufOffset → opts.mcuOta = true ∧ c.otaCb = true)
    (hs : stagePacket opts ok data c = some (c', acts, r)) :
    r = true ∧ Staging (sink ++ received acts) (taken ++ data) c' ∧ c'.status = c.status ∧
      (data.length + c.otaBufOffset = 0 ∨ data.length + c.otaBufOffset = bufSize → c'.otaBufOffset = 0) := by
  have hoff := h.offset
  rcases stagePacket_cases hs with ⟨hroom, rfl, rfl, rfl⟩ | ⟨hfull, full, written, hsink, hcase⟩
  · refine ⟨rfl, ?_, rfl, fun hz => ?_⟩
    · simpa [received] using stage_staging h data (by omega) hsize
    · show c.otaBufOffset + data.length = 0
      omega
  · have hdeal : (data.take (bufSize - c.otaBufOffset)).length = bufSize - c.otaBufOffset := by
      rw [length_take]
      omega
    have hstaged : Staging sink (taken ++ data.take (bufSize - c.otaBufOffset))
        (stage (data.take (bufSize - c.otaBufOffset)) c) :=
      stage_staging h _ (by omega) (by omega)
    have htaken : (taken ++ data.take (bufSize - c.otaBufOffset)).length < 2 ^ 32 := by
      rw [length_append, hdeal, ← h.download]
      omega
    obtain ⟨rfl, hall, haddr⟩ := toSink_staging hstaged hok (fun hmcu => hcb hmcu hfull) htaken hsink
    rcases hcase with ⟨hr, -⟩ | ⟨-, -, hrest, rfl, rfl⟩
    · cases hr
    have hprogress : received (if full.otaCb then
        [Action.callback full.otaFile.otaType .dataProgress [percent full]] else []) = [] := by
      split <;> rfl
    have hempty : Staging (sink ++ received written) (taken ++ data.take (bufSize - c.otaBufOffset))
        { full with otaDownloadPercent := percent full, otaBufOffset := 0 } := by
      rw [toSink_frame hsink]
      exact ⟨⟨hstaged.size, Nat.zero_le _⟩, h.image, hstaged.download, fun hble => by rw [hall, haddr hble],
        by simpa [Context.staged] using hall⟩
    refine ⟨rfl, ?_, by rw [toSink_frame hsink]; rfl, fun hz => ?_⟩
    · rw [received_append, hprogress, append_nil]
      have hdown := hempty.download
      rw [length_append, hdeal, ← h.download] at hdown
      have hlast := stage_staging hempty (data.drop (bufSize - c.otaBufOffset))
        (by show 0 + _ ≤ _; rw [length_drop]; omega) (by rw [hdown, length_drop]; omega)
      rwa [append_assoc, take_append_drop] at hlast
    · show 0 + (data.drop (bufSize - c.otaBufOffset)).length = 0
      rw [length_drop]
      omega

end

/-- The session: while packets come in, everything is in the sink or staged; once the
image is ready to be verified, everything is in the sink. -/
def Holds (sink taken : Bytes) (c : Context) : Prop :=
  (c.status ≠ .fwVerify ∧ Staging sink taken c) ∨
  (c.status = .fwVerify ∧ sink = taken ∧ c.otaDownloadFileSize = taken.length)

theorem Holds.staging (h : Holds sink taken c) (hon : c.status ≠ .fwVerify) : Staging sink taken c := by
  rcases h with ⟨-, hst⟩ | ⟨hv, -⟩
  · exact hst
  · exact absurd hv hon

theorem lastPackage_holds (h : Staging sink taken c) (hstatus : c.status ≠ .fwVerify) (hsize : taken.length < 2 ^ 32)
    (hok : c.otaFile.otaType = typeBle → ok = true)
    (hmcu : c.otaFile.otaType = typeMcu → c.otaFile.fileSize ≤ c.otaDownloadFileSize → c.otaBufOffset = 0)
    (hl : lastPackage ok msgId c = (c', acts, r)) : r = true ∧ Holds (sink ++ received acts) taken c' := by
  -- with nothing staged the sink already has everything
  have hnothing (hz : c.otaBufOffset = 0) : sink = taken := by
    have hsplit := h.split
    rwa [Context.staged, hz, take_zero, append_nil] at hsplit
  rcases lastPackage_cases hl with ⟨-, rfl, rfl, rfl⟩ | ⟨hlast, ⟨hble, -, after, written, hwrite, hcase⟩ |
    ⟨rfl, rfl, ⟨-, hoff, rfl⟩ | ⟨hble, rfl⟩⟩⟩
  · exact ⟨rfl, .inl ⟨hstatus, by simpa [received] using h⟩⟩
  · rw [hok hble] at hwrite
    obtain ⟨rfl, hall, rfl⟩ := writeStaged_staging h hble hsize hwrite
    rcases hcase with ⟨hr, -⟩ | ⟨-, rfl, rfl⟩
    · cases hr
    · refine ⟨rfl, .inr ⟨rfl, ?_, h.download⟩⟩
      rw [received_append, ← append_assoc, hall]
      simp [received, dataRsp, Action.sinkBytes]
  · exact ⟨rfl, .inr ⟨rfl, by simpa [received, dataRsp, Action.sinkBytes] using hnothing hoff, h.download⟩⟩
  · exact ⟨rfl, .inr ⟨rfl, by simpa [received] using hnothing (hmcu (h.image.resolve_left hble) hlast), h.download⟩⟩

/-- The step of the session: a packet that is taken. -/
theorem acceptData_holds (h : Staging sink taken c) (hon : c.status = .idle ∨ c.status = .data)
    (hseq : msgId = c.nextSeq) (hsound : Sound opts c (.data msgId data flushOk lastOk))
    (ha : acceptData opts msgId data flushOk lastOk c = some (c', acts, r)) :
    r = true ∧ Holds (sink ++ received acts) (taken ++ data) c' := by
  obtain ⟨hsize, hble, hmcu⟩ := hsound hon hseq
  have hstage_spec {c₁ : Context} {acts₁ : List Action} {r₁ : Bool}
      (hs : stagePacket opts flushOk data (inSequence msgId c) = some (c₁, acts₁, r₁)) :=
    stagePacket_staging (c := inSequence msgId c) (h.frame ..) hsize (fun hb => (hble hb).1)
      (fun hm hfull => (hmcu hm).1 hfull) hs
  rcases acceptData_cases ha with ⟨rfl, hstage⟩ | ⟨staged, staging, replied, reply, last, hstage, hreply, hlast, rfl⟩
  · cases (hstage_spec hstage).1
  · obtain ⟨-, hst, hstatus, hleft⟩ := hstage_spec hstage
    have htotal : (taken ++ data).length < 2 ^ 32 := by
      rw [length_append, ← h.download]
      exact hsize
    have htype : staged.otaFile = c.otaFile := (stagePacket_file hstage).trans rfl
    have hdown : staged.otaDownloadFileSize = c.otaDownloadFileSize + data.length := by
      rw [hst.download, length_append, h.download]
    rw [(loopReply_cases hreply).1] at hlast
    have hresult := lastPackage_holds (hst.frame ..) (by rw [hstatus]; exact Status.noConfusion) htotal
      (fun hb => (hble (by rw [← htype]; exact hb)).2)
      (fun hm hdone => by
        rw [htype] at hm hdone
        exact hleft ((hmcu hm).2 (by rw [← hdown]; exact hdone))) hlast
    have hquiet := received_eq_nil fun a ha => (loopReply_acts hreply a ha).2
    rw [received_append, received_append, hquiet, append_nil, ← append_assoc]
    exact hresult

/-- **One step of a session.** Whatever comes in, short of what ends the session. -/
theorem dispatch_holds {e : Event} (h : Holds sink taken c) (hsound : Sound opts c e)
    (hd : dispatch opts c e = some (c', acts)) (hreset : Action.reset ∉ acts) :
    Holds (sink ++ received acts) (taken ++ acceptedBytes (e, ⟨c, acts⟩)) c' := by
  have hother (he : ∀ msgId data flushOk lastOk, e ≠ .data msgId data flushOk lastOk)
      (hnone : acceptedBytes (e, ⟨c, acts⟩) = []) :
      Holds (sink ++ received acts) (taken ++ acceptedBytes (e, ⟨c, acts⟩)) c' := by
    have hquiet := received_eq_nil fun a ha => Action.isSink_of_ofData (dispatch_ofData hd he a ha)
    rw [hquiet, hnone, append_nil, append_nil]
    rcases dispatch_cases hd with ⟨_, _, _, _, rfl⟩ | ⟨_, _, _, _, rfl⟩ | ⟨-, hmem⟩ | ⟨-, ⟨hdata, rfl⟩ | ⟨count, rfl⟩⟩
    · cases hd
      simp at hreset
    · exact absurd rfl (he _ _ _ _)
    · exact absurd hmem hreset
    · exact .inl ⟨Status.noConfusion, (h.staging (Context.taking_ne (.inr hdata)).2).frame ..⟩
    · rcases h with ⟨hv, hst⟩ | ⟨hv, hall, hdown⟩
      · exact .inl ⟨hv, hst.frame ..⟩
      · exact .inr ⟨hv, hall, hdown⟩
  cases e with
  | data msgId data flushOk lastOk =>
    rcases dispatch_data_cases hd with ⟨hoff, rfl, rfl⟩ | ⟨hon, ⟨hseq, rfl, rfl⟩ | ⟨hseq, did, acts', r, haccept, hcase⟩⟩
    · simpa [received, acceptedBytes, hoff] using h
    · -- a packet out of sequence only moves the status
      have hst := (h.staging (Context.taking_ne hon).2).frame .idle c.nextSeq c.otaTimeoutCnt c.msgId
      exact .inl ⟨Status.noConfusion, by simpa [received, acceptedBytes, hseq, dataRsp, Action.sinkBytes] using hst⟩
    · obtain ⟨rfl, hholds⟩ := acceptData_holds (h.staging (Context.taking_ne hon).2) hon hseq hsound haccept
      rcases hcase with ⟨-, rfl, rfl⟩ | ⟨hr, -⟩
      · simpa [acceptedBytes, hon, hseq] using hholds
      · cases hr
  | queryVer | request | verify | timer | disconnected => exact hother (fun _ _ _ _ => Event.noConfusion) rfl

/-! ### Sessions -/

theorem reqParse_type {f f' : OtaFile} (h : reqParse data f = (f', .success)) : isValidOtaType f'.otaType = true := by
  unfold reqParse at h
  dsimp only at h
  split at h
  · cases h
  split at h
  · cases h
  next htype =>
  repeat' split at h
  all_goals cases h
  simpa using htype

theorem askUser_request (opts : Options) (answer : Int) (c : Context) (parsed posted : Bool) (reason : Int) :
    Action.request parsed reason posted ∉ (askUser opts answer c).2 := by
  unfold askUser
  repeat' split
  all_goals simp

/-- A request that was parsed and answered with the normal reason leaves a valid image
type and the status `data`. -/
theorem reqHandle_accepted (h : reqHandle opts msgId data answer posted c = (c', acts))
    (hacc : Action.request true Reason.normal true ∈ acts) :
    isValidOtaType c'.otaFile.otaType = true ∧ c'.status = .data ∧ c'.otaDataBuf = c.otaDataBuf ∧
    c'.otaBufOffset = c.otaBufOffset ∧ c'.otaDownloadFileSize = c.otaDownloadFileSize ∧
    c'.offsetAddr = c.offsetAddr := by
  unfold reqHandle at h
  split at h
  · cases h
    cases hacc
  · dsimp only at h
    split at h
    · next f hparse =>
      cases h
      rcases mem_append.mp hacc with hmem | hmem
      · exact absurd hmem (askUser_request _ _ _ _ _ _)
      · simp only [mem_cons, not_mem_nil, or_false] at hmem
        rcases hmem with hmem | hmem
        · cases hmem
        · simp only [Action.request.injEq, true_and] at hmem
          rw [← hmem.2]
          exact ⟨reqParse_type hparse, rfl, rfl, rfl, rfl, rfl⟩
    · cases h
      simp [reqRsp] at hacc

/-- An accepted request starts with nothing received and nothing staged. -/
theorem accepted_request_holds (hc : Buffered c)
    (hd : dispatch opts c (.request msgId data answer posted) = some (c', acts))
    (hacc : Action.request true Reason.normal true ∈ acts) : Holds [] [] c' := by
  obtain ⟨handled, did, hhandle⟩ :
      ∃ handled did, reqHandle opts msgId data answer posted { reset c with offsetAddr := 0 } = (handled, did) :=
    ⟨_, _, rfl⟩
  simp only [dispatch, hhandle, Option.some.injEq, Prod.mk.injEq] at hd
  obtain ⟨rfl, rfl⟩ := hd
  obtain ⟨htype, hstatus, hbuf, hoff, hdown, haddr⟩ := reqHandle_accepted hhandle (by simpa using hacc)
  simp only [isValidOtaType, Bool.or_eq_true, beq_iff_eq] at htype
  have hzero : handled.otaBufOffset = 0 := hoff
  have hsize : handled.otaDataBuf.length = bufSize := by
    rw [hbuf]
    exact hc.size
  refine .inl ⟨by rw [hstatus]; exact Status.noConfusion, ⟨hsize, ?_⟩, htype, hdown, fun _ => haddr, ?_⟩
  · rw [hzero]
    exact Nat.zero_le _
  · rw [Context.staged, hzero]
    rfl

/-- **Image integrity.** In every session whose request was accepted, and whose taken
packets are `Sound`: until the image is complete, what the sink has received and what
is staged are together exactly the payloads taken, in order; when it is ready to be
verified, the sink has received exactly those, and the download counts them. -/
theorem image_integrity (opts : Options) (bleVer mcuVer : Ver) (otaCb : Bool) (earlier later : List Event)
    (msgId : UInt8) (data : Bytes) (answer : Int) (posted : Bool) (c₀ c₁ c : Context) (o : Shown)
    (before trace : List (Event × Shown))
    (hbefore : (machine opts).run (init bleVer mcuVer otaCb) earlier = some (c₀, before))
    (hrequest : (machine opts).step c₀ (.request msgId data answer posted) = some (c₁, o))
    (haccepted : Action.request true Reason.normal true ∈ o.acts)
    (hrun : (machine opts).run c₁ later = some (c, trace))
    (hsession : ∀ x ∈ trace, Action.reset ∉ x.2.acts)
    (hsound : (machine opts).Meets (Sound opts) c₁ later) :
    (c.status = .fwVerify → received (actions trace) = accepted trace ∧
      (accepted trace).length = c.otaDownloadFileSize) ∧
    (c.status ≠ .fwVerify → received (actions trace) ++ c.staged = accepted trace) := by
  have hstart : Holds [] [] c₁ :=
    accepted_request_holds (run_buffered hbefore) (machine_step hrequest).2 haccepted
  have hend := (machine opts).run_invariant (Sound opts)
    (fun past c => (∀ x ∈ past, Action.reset ∉ x.2.acts) → Holds (received (actions past)) (accepted past) c)
    (fun past s e s' shown hpast hs hstep hquiet => ?_) (fun _ => hstart) hsound hrun
  · rcases hend hsession with ⟨hstatus, hst⟩ | ⟨hstatus, hall, hdown⟩
    · exact ⟨fun hv => absurd hv hstatus, fun _ => hst.split⟩
    · exact ⟨fun _ => ⟨hall, hdown.symm⟩, fun hv => absurd hstatus hv⟩
  · obtain ⟨hbefore', hdispatch⟩ := machine_step hstep
    have hholds := dispatch_holds (hpast fun x hx => hquiet x (mem_append_left _ hx)) hs hdispatch
      (hquiet (e, shown) (by simp))
    have hshown : shown = ⟨s, shown.acts⟩ := by rw [← hbefore']
    rw [← hshown] at hholds
    simpa [actions, accepted] using hholds

def mcuRequest : Bytes := [typeMcu, 1, 0, 0, hashCrc32, 1, 2, 3, 4, 0, 0, 0, 4]

/-- A BLE image of four bytes in two packets, with one repeated in between. -/
theorem image_integrity_small :
    ∃ (c₁ c : Context) (o : Shown) (trace : List (Event × Shown)),
      (machine bothImages).step (init {} {} true) (.request 0 smallRequest Reason.normal true) = some (c₁, o) ∧
      (machine bothImages).run c₁ [.data 0 [1, 2, 3] true true, .data 0 [1, 2, 3] true true,
        .data 1 [4] true true] = some (c, trace) ∧
      accepted trace = [1, 2, 3, 4] ∧ c.status = .fwVerify ∧ received (actions trace) = accepted trace :=
  ⟨_, _, _, _, rfl, rfl, rfl, rfl,
    ((image_integrity bothImages {} {} true [] [.data 0 [1, 2, 3] true true, .data 0 [1, 2, 3] true true,
      .data 1 [4] true true] 0 smallRequest Reason.normal true (init {} {} true) _ _ _ [] _ rfl rfl (by decide) rfl
      (by decide) (Machine.meets_cons _ (by decide) rfl (Machine.meets_cons _ (by decide) rfl
        (Machine.meets_cons _ (by decide) rfl trivial)))).1 rfl).1⟩

/-- An MCU image of four bytes is complete, and the callback has none of them. -/
theorem mcu_image_not_delivered :
    ¬ ∀ (opts : Options) (bleVer mcuVer : Ver) (otaCb : Bool) (earlier later : List Event)
      (msgId : UInt8) (data : Bytes) (answer : Int) (posted : Bool) (c₀ c₁ c : Context) (o : Shown)
      (before trace : List (Event × Shown)),
      (machine opts).run (init bleVer mcuVer otaCb) earlier = some (c₀, before) →
      (machine opts).step c₀ (.request msgId data answer posted) = some (c₁, o) →
      Action.request true Reason.normal true ∈ o.acts →
      (machine opts).run c₁ later = some (c, trace) →
      (∀ x ∈ trace, Action.reset ∉ x.2.acts) →
      (c.status = .fwVerify → received (actions trace) = accepted trace ∧
        (accepted trace).length = c.otaDownloadFileSize) ∧
      (c.status ≠ .fwVerify → received (actions trace) ++ c.staged = accepted trace) := by
  intro hall
  have hmissing := (hall bothImages {} {} true [] [.data 0 [1, 2, 3, 4] true true] 0 mcuRequest Reason.normal true
    (init {} {} true) _ _ _ [] _ rfl rfl (by decide) rfl (by decide)).1 rfl
  exact absurd hmissing.1 (by decide)

end Qumios.Ble.Ota
