import Qumios.Ble.OtaImage

/-! The staging buffer and the packets that go through it.

A packet is cut once, at the end of the staging buffer: what fits fills it, the buffer goes to
the sink, and the rest is copied to its beginning. Two things hold that together from outside
(`Fits`). The rest must be shorter than the buffer, which bounds the packet, and the transport
delivers payloads of up to `QB_MAX_PAYLOAD_SIZE` bytes. And the sink must take the buffer: on a
flash error the handler leaves with the offset at the end of the buffer. -/
namespace Qumios.Ble.Ota
open Buffer Run List

/-! ### Copies -/

/-- The copies a packet makes into the staging buffer, as `memcpy` gets them: where, and how many bytes.
The second one is reached when the sink took the buffer and the percentage could be computed. -/
def copies (opts : Options) (c : Context) : Event → List (Nat × Nat)
  | .data msgId data flushOk _ =>
    if (c.status ≠ .idle ∧ c.status ≠ .data) ∨ msgId ≠ c.nextSeq then []
    else if data.length + c.otaBufOffset ≥ bufSize then
      let dealLen := bufSize - c.otaBufOffset
      let (full, _, taken) := toSink opts flushOk (stage (data.take dealLen) (inSequence msgId c))
      (c.otaBufOffset, dealLen) :: if taken ∧ full.otaFile.fileSize ≠ 0 then [(0, data.length - dealLen)] else []
    else [(c.otaBufOffset, data.length)]
  | _ => []

/-- The condition on a packet that is taken: cut at the end of the buffer, what is left of it is shorter
than the buffer, and the flash writes it causes succeed. -/
def Fits (c : Context) : Event → Prop
  | .data msgId data flushOk lastOk =>
    (c.status = .idle ∨ c.status = .data) → msgId = c.nextSeq →
      data.length + c.otaBufOffset < 2 * bufSize ∧
      (c.otaFile.otaType = typeBle → flushOk = true ∧ lastOk = true)
  | _ => True

instance (c : Context) : (e : Event) → Decidable (Fits c e)
  | .data msgId data flushOk lastOk =>
    inferInstanceAs (Decidable ((c.status = .idle ∨ c.status = .data) → msgId = c.nextSeq →
      data.length + c.otaBufOffset < 2 * bufSize ∧
      (c.otaFile.otaType = typeBle → flushOk = true ∧ lastOk = true)))
  | .queryVer .. | .request .. | .verify .. | .timer | .disconnected => isTrue trivial

/-! ### The offset -/

def Level (c : Context) : Prop :=
  c.otaFile.otaType = typeBle → (c.offsetAddr + c.otaBufOffset) % 2 ^ 32 = c.otaDownloadFileSize

/-- The offset is inside the buffer; until the image is complete the flash is `Level`. -/
structure Aligned (c : Context) : Prop extends Buffered c where
  inside : c.otaBufOffset < bufSize
  level : c.status ≠ .fwVerify → Level c

variable {c c' : Context} {acts : List Action} {r : Bool} {opts : Options}

theorem Buffered.staged_length (h : Buffered c) : c.staged.length = c.otaBufOffset := by
  rw [Context.staged, length_take, h.size, Nat.min_eq_left h.offset]

theorem Level.stage (h : Level c) (data : Bytes) : Level (stage data c) := by
  intro htype
  have hc := h htype
  simp only [Ota.stage]
  omega

theorem Level.writeStaged (h : Level c) (hc : Buffered c) (htype : c.otaFile.otaType = typeBle)
    (hw : writeStaged true c = (c', acts, r)) : r = true ∧ c' = { c with offsetAddr := c.otaDownloadFileSize } := by
  obtain ⟨rfl, -, hr⟩ := writeStaged_cases hw
  rw [hc.staged_length, h htype] at hr ⊢
  exact ⟨hr.mpr ⟨rfl, rfl⟩, rfl⟩

variable {ok : Bool}

/-- The sink takes a full buffer, and the flash is level with nothing staged. -/
theorem Level.toSink (h : Level c) (hc : Buffered c) (hok : c.otaFile.otaType = typeBle → ok = true)
    (hs : toSink opts ok c = (c', acts, r)) : r = true ∧ Level { c' with otaBufOffset := 0 } := by
  rcases toSink_cases hs with ⟨hmcu, rfl, hr, -⟩ | ⟨hble, hwrite⟩ | ⟨-, hble, rfl, hr, -⟩
  · exact ⟨hr, fun htype => absurd (hmcu.symm.trans htype) (by decide)⟩
  · rw [hok hble] at hwrite
    obtain ⟨hr, rfl⟩ := h.writeStaged hc hble hwrite
    refine ⟨hr, fun _ => ?_⟩
    have hlevel := h hble
    show (c.otaDownloadFileSize + 0) % 2 ^ 32 = c.otaDownloadFileSize
    omega
  · exact ⟨hr, fun htype => absurd htype hble⟩

section
variable (hc : Buffered c) (hlevel : Level c)
include hc hlevel

/-- A packet that fits, into the staging buffer. -/
theorem stagePacket_aligned {data : Bytes} (hfits : data.length + c.otaBufOffset < 2 * bufSize)
    (hok : c.otaFile.otaType = typeBle → ok = true) (h : stagePacket opts ok data c = some (c', acts, r)) :
    r = true ∧ Buffered c' ∧ c'.otaBufOffset < bufSize ∧ Level c' := by
  have hbuffered := stagePacket_buffered hc h
  rcases stagePacket_cases h with ⟨hroom, rfl, -, hr⟩ | ⟨hfull, full, written, hsink, hcase⟩
  · refine ⟨hr, hbuffered, ?_, hlevel.stage data⟩
    show c.otaBufOffset + data.length < bufSize
    omega
  · have hoffset := hc.offset
    have hstaged : Buffered (stage (data.take (bufSize - c.otaBufOffset)) c) :=
      stage_buffered hc (by rw [length_take]; omega)
    obtain ⟨hr, hempty⟩ := (hlevel.stage _).toSink hstaged hok hsink
    rcases hcase with ⟨hfailed, -, -⟩ | ⟨-, -, -, rfl, -⟩
    · rw [hr] at hfailed
      cases hfailed
    · refine ⟨hr, hbuffered, ?_, ?_⟩
      · show 0 + (data.drop (bufSize - c.otaBufOffset)).length < bufSize
        rw [length_drop]
        omega
      · exact Level.stage (c := { full with otaDownloadPercent := percent full, otaBufOffset := 0 }) hempty _

/-- The end of an image leaves the flash level until then. -/
theorem lastPackage_aligned {msgId : UInt8} (hok : c.otaFile.otaType = typeBle → ok = true)
    (h : lastPackage ok msgId c = (c', acts, r)) : r = true ∧ (c'.status ≠ .fwVerify → Level c') := by
  rcases lastPackage_cases h with ⟨-, rfl, -, hr⟩ | ⟨-, ⟨hble, -, after, written, hwrite, hcase⟩ | ⟨hr, rfl, -⟩⟩
  · exact ⟨hr, fun _ => hlevel⟩
  · rw [hok hble] at hwrite
    obtain ⟨rfl, -⟩ := hlevel.writeStaged hc hble hwrite
    rcases hcase with ⟨hr, -⟩ | ⟨-, rfl, -⟩
    · cases hr
    · exact ⟨rfl, fun hne => absurd rfl hne⟩
  · exact ⟨hr, fun hne => absurd rfl hne⟩

/-- The packet that is taken. -/
theorem acceptData_aligned {msgId : UInt8} {data : Bytes} {flushOk lastOk : Bool}
    (hfits : data.length + c.otaBufOffset < 2 * bufSize)
    (hok : c.otaFile.otaType = typeBle → flushOk = true ∧ lastOk = true)
    (h : acceptData opts msgId data flushOk lastOk c = some (c', acts, r)) : r = true ∧ Aligned c' := by
  have hbuffered := acceptData_buffered hc h
  have hstage_spec {c₁ : Context} {acts₁ : List Action} {r₁ : Bool}
      (hs : stagePacket opts flushOk data (inSequence msgId c) = some (c₁, acts₁, r₁)) :=
    stagePacket_aligned (c := inSequence msgId c) ⟨hc.size, hc.offset⟩ hlevel hfits (fun hb => (hok hb).1) hs
  rcases acceptData_cases h with ⟨rfl, hstage⟩ | ⟨staged, staging, replied, reply, last, hstage, hreply, hlast, -⟩
  · cases (hstage_spec hstage).1
  · obtain ⟨-, hst, hinside, hlev⟩ := hstage_spec hstage
    have htype : staged.otaFile = c.otaFile := (stagePacket_file hstage).trans rfl
    rw [(loopReply_cases hreply).1] at hlast
    obtain ⟨hr, hend⟩ := lastPackage_aligned (c := { staged with nextSeq := replied.nextSeq }) ⟨hst.size, hst.offset⟩ hlev
      (fun hb => (hok (by rw [← htype]; exact hb)).2) hlast
    refine ⟨hr, hbuffered, ?_, hend⟩
    rw [lastPackage_frame hlast]
    exact hinside

end

/-- **One step** keeps the offset inside the buffer. -/
theorem Aligned.dispatch {e : Event} (hc : Aligned c) (hfits : Fits c e) (h : dispatch opts c e = some (c', acts)) :
    Aligned c' := by
  have hbuffered := dispatch_buffered hc.toBuffered h
  rcases dispatch_cases h with ⟨msgId, data, answer, posted, rfl⟩ | ⟨msgId, data, flushOk, lastOk, rfl⟩ | ⟨rfl, -⟩ |
    ⟨-, ⟨hdata, rfl⟩ | ⟨count, rfl⟩⟩
  · obtain ⟨hoff, haddr, hsize⟩ : c'.otaBufOffset = 0 ∧ c'.offsetAddr = 0 ∧ c'.otaDownloadFileSize = 0 := by
      simp only [Ota.dispatch, Option.some.injEq, Prod.mk.injEq] at h
      rw [← h.1]
      unfold reqHandle
      repeat' split
      all_goals exact ⟨rfl, rfl, rfl⟩
    exact ⟨hbuffered, by rw [hoff]; decide, fun _ _ => by rw [hoff, haddr, hsize]; rfl⟩
  · rcases dispatch_data_cases h with ⟨-, rfl, -⟩ | ⟨hon, ⟨-, rfl, -⟩ | ⟨hseq, taken, did, r, haccept, hcase⟩⟩
    · exact hc
    · exact ⟨hbuffered, hc.inside, fun _ => hc.level (Context.taking_ne hon).2⟩
    · obtain ⟨hlen, hok⟩ := hfits hon hseq
      obtain ⟨rfl, htaken⟩ := acceptData_aligned hc.toBuffered (hc.level (Context.taking_ne hon).2) hlen hok haccept
      rcases hcase with ⟨-, rfl, -⟩ | ⟨hfailed, -, -⟩
      · exact htaken
      · cases hfailed
  · exact ⟨hbuffered, Nat.zero_lt_succ _, fun _ htype => absurd htype (show (0 : UInt8) ≠ typeBle by decide)⟩
  · exact ⟨hbuffered, hc.inside, fun _ => hc.level (Context.taking_ne (.inr hdata)).2⟩
  · exact ⟨hbuffered, hc.inside, hc.level⟩

/-! ### Runs -/

/-- The copies of a packet that fits. -/
theorem Aligned.copies {e : Event} (hc : Aligned c) (hfits : Fits c e) :
    ∀ copy ∈ copies opts c e, copy.1 + copy.2 ≤ bufSize := by
  intro copy hmem
  have hinside := hc.inside
  cases e with
  | data msgId data flushOk lastOk =>
    simp only [Ota.copies] at hmem
    split at hmem
    · cases hmem
    · next htaken =>
      rw [not_or, not_and_or, not_not, not_not, not_not] at htaken
      obtain ⟨hlen, -⟩ := hfits htaken.1 htaken.2
      split at hmem
      · rcases mem_cons.mp hmem with rfl | hmem
        · omega
        · split at hmem
          · rw [mem_singleton.mp hmem]
            omega
          · cases hmem
      · rw [mem_singleton.mp hmem]
        omega
  | queryVer | request | verify | timer | disconnected => cases hmem

/-- **The staging buffer is not overrun** in a run whose packets fit: after every step the offset is inside
the buffer, and the copies of the next packet that fits, whatever it is, are too. -/
theorem staging_within (opts : Options) (bleVer mcuVer : Ver) (otaCb : Bool) (events : List Event) (c : Context)
    (trace : List (Event × Shown)) (hfits : (machine opts).Meets Fits (init bleVer mcuVer otaCb) events)
    (hrun : (machine opts).run (init bleVer mcuVer otaCb) events = some (c, trace)) :
    c.otaBufOffset < bufSize ∧
      ∀ e, Fits c e → ∀ copy ∈ copies opts c e, copy.1 + copy.2 ≤ bufSize := by
  have hstart : Aligned (init bleVer mcuVer otaCb) :=
    ⟨⟨length_replicate, Nat.zero_le _⟩, Nat.zero_lt_succ _, fun _ _ => rfl⟩
  have hc := (machine opts).run_invariant Fits (fun _ c => Aligned c)
    (fun _ _ _ _ _ hs hf hstep => hs.dispatch hf (machine_step hstep).2) hstart hfits hrun
  exact ⟨hc.inside, fun e he => hc.copies he⟩

def thousandRequest : Event := .request 0 [typeBle, 1, 0, 0, hashCrc32, 1, 2, 3, 4, 0, 0, 3, 0xE8] Reason.normal true

/-- Two packets of two hundred bytes: the second one is cut. -/
theorem staging_within_two :
    ∃ c trace, (machine bothImages).run (init {} {} true) [thousandRequest, .data 0 (List.replicate 200 7) true true,
        .data 1 (List.replicate 200 7) true true] = some (c, trace) ∧ c.otaBufOffset = 144 ∧
      (c.otaBufOffset < bufSize ∧ ∀ e, Fits c e → ∀ copy ∈ copies bothImages c e, copy.1 + copy.2 ≤ bufSize) := by
  have hoffset : ((machine bothImages).run (init {} {} true) [thousandRequest,
      .data 0 (replicate 200 7) true true, .data 1 (replicate 200 7) true true]).map
        (fun r => r.1.otaBufOffset) = some 144 := by decide +kernel
  obtain ⟨⟨c, trace⟩, hrun, hoffset⟩ := Option.map_eq_some_iff.mp hoffset
  exact ⟨c, trace, hrun, hoffset, staging_within bothImages {} {} true _ c trace (by decide +kernel) hrun⟩

/-- A packet of six hundred bytes, which five long frames carry, is copied past the end of the buffer. A
flash that fails leaves the offset at its end. -/
theorem large_packet_overruns :
    (∃ cfg : Config, (List.replicate 600 (7 : UInt8)).length ≤ cfg.maxPayloadSize ∧
      ∃ c trace, (machine bothImages).run (init {} {} true) [thousandRequest] = some (c, trace) ∧
        (0, 344) ∈ copies bothImages c (.data 0 (List.replicate 600 7) true true) ∧ ¬ 0 + 344 ≤ bufSize) ∧
    ∃ c trace, (machine bothImages).run (init {} {} true)
      [thousandRequest, .data 0 (List.replicate 256 7) false true] = some (c, trace) ∧ c.otaBufOffset = bufSize := by
  constructor
  · have hcopies : ((machine bothImages).run (init {} {} true) [thousandRequest]).map
        (fun r => copies bothImages r.1 (.data 0 (replicate 600 7) true true)) = some [(0, 256), (0, 344)] := by
      decide +kernel
    obtain ⟨⟨c, trace⟩, hrun, hcopies⟩ := Option.map_eq_some_iff.mp hcopies
    refine ⟨⟨true, true, 5, gattMtuSizeMax, by decide, .inr rfl⟩, ?_, c, trace, hrun, ?_, by decide⟩
    · rw [length_replicate]
      decide
    · rw [hcopies]
      decide
  · have hoffset : ((machine bothImages).run (init {} {} true)
        [thousandRequest, .data 0 (replicate 256 7) false true]).map (fun r => r.1.otaBufOffset) =
          some bufSize := by decide +kernel
    obtain ⟨⟨c, trace⟩, hrun, hoffset⟩ := Option.map_eq_some_iff.mp hoffset
    exact ⟨c, trace, hrun, hoffset⟩

end Qumios.Ble.Ota
