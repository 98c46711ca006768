import Qumios.Ble.Ota

/-! When the update writes.

The gate is open from a request that was parsed and answered with the normal
reason until the session ends or the flash fails. `gated_iff` says exactly which
runs write, or call the MCU back with data, only while it is open: those in which
no packet that flushes the staging buffer arrives while it is closed. The context
does not know the gate: a refused request leaves the status at `data` (or `idle`),
and a flash error at `idle`, and in both the next packet in sequence is taken. -/
namespace Qumios.Ble.Ota
open Run List

/-! ### The gate -/

def Action.isSink : Action → Bool
  | .flashWrite _ _ _ => true
  | .callback _ .data _ => true
  | _ => false

/-- What an action does to the gate. -/
def gateStep (isOpen : Bool) : Action → Bool
  | .request parsed reason posted => parsed && reason == Reason.normal && posted
  | .flashWrite _ _ false => false
  | .flashError => false
  | .reset => false
  | _ => isOpen

def gate (acts : List Action) : Bool := acts.foldl gateStep false

def Gated (acts : List Action) : Prop :=
  ∀ before a after, acts = before ++ a :: after → a.isSink = true → gate before = true

def actions (trace : List (Event × Shown)) : List Action := trace.flatMap fun x => x.2.acts

/-- The packet reaches the sink: it is the next one in sequence, and either it fills the
staging buffer or it completes a BLE image. -/
def Flushes (opts : Options) (c : Context) : Event → Prop
  | .data msgId data _ _ =>
    (c.status = .idle ∨ c.status = .data) ∧ msgId = c.nextSeq ∧
    ((c.otaFile.otaType = typeMcu ∧ opts.mcuOta = true ∧ c.otaCb = true ∧
        bufSize ≤ data.length + c.otaBufOffset) ∨
      (c.otaFile.otaType = typeBle ∧ (bufSize ≤ data.length + c.otaBufOffset ∨
        (c.otaFile.fileSize ≤ (c.otaDownloadFileSize + data.length) % 2 ^ 32 ∧
          c.otaBufOffset + data.length ≠ 0))))
  | _ => False

/-! ### What one step does -/

def Neutral (a : Action) : Prop := ∀ isOpen, gateStep isOpen a = isOpen

def Ordered : List Action → Prop
  | [] => True
  | a :: rest => (Neutral a ∧ Ordered rest) ∨ ∀ x ∈ rest, x.isSink = false

variable {acts : List Action} {c c' : Context} {ok r : Bool} {opts : Options} {data : Bytes} {msgId : UInt8}

variable {rest before after : List Action} {a : Action} {flushOk lastOk : Bool} {e : Event}
  {trace : List (Event × Shown)}

theorem ordered_of_neutral (h : ∀ a ∈ acts, Neutral a) (hrest : Ordered rest) : Ordered (acts ++ rest) := by
  induction acts with
  | nil => exact hrest
  | cons a acts ih =>
    exact .inl ⟨h a mem_cons_self, ih fun x hx => h x (mem_cons_of_mem a hx)⟩

theorem ordered_of_sinkFree (h : ∀ a ∈ acts, a.isSink = false) : Ordered acts := by
  cases acts with
  | nil => trivial
  | cons a acts => exact .inr fun x hx => h x (mem_cons_of_mem a hx)

theorem ordered_append (h : Ordered acts) (hrest : ∀ a ∈ rest, a.isSink = false) : Ordered (acts ++ rest) := by
  induction acts with
  | nil => exact ordered_of_sinkFree hrest
  | cons a acts ih =>
    rcases h with ⟨ha, hacts⟩ | hfree
    · exact .inl ⟨ha, ih hacts⟩
    · exact .inr (forall_mem_append.mpr ⟨hfree, hrest⟩)

theorem not_exists_sink (h : ∀ a ∈ acts, a.isSink = false) : ¬ ∃ a ∈ acts, a.isSink = true := by
  rintro ⟨a, ha, hs⟩
  rw [h a ha] at hs
  cases hs

theorem exists_sink_append (hrest : ∀ a ∈ rest, a.isSink = false) :
    (∃ a ∈ acts ++ rest, a.isSink = true) ↔ ∃ a ∈ acts, a.isSink = true := by
  simp only [mem_append, or_and_right, exists_or, not_exists_sink hrest, or_false]

/-- In front of anything that goes to the sink the gate has not moved. -/
theorem foldl_gateStep_of_ordered (h : Ordered acts) (heq : acts = before ++ a :: after) (ha : a.isSink = true)
    (isOpen : Bool) : before.foldl gateStep isOpen = isOpen := by
  induction before generalizing acts with
  | nil => rfl
  | cons b before ih =>
    subst heq
    rcases h with ⟨hb, hrest⟩ | hfree
    · rw [foldl_cons, hb isOpen]
      exact ih hrest rfl
    · have := hfree a (by simp)
      rw [ha] at this
      cases this

theorem neutral_post (msgId cmd comCode : UInt8) (payload : Bytes) : Neutral (.post msgId cmd comCode payload) :=
  fun _ => rfl

theorem neutral_callback (otaType : UInt8) (event : CbEvent) (payload : Bytes) :
    Neutral (.callback otaType event payload) := by
  intro isOpen
  cases event <;> rfl

/-- The sink of an image: one write, one callback, or nothing. -/
theorem toSink_acts (h : toSink opts ok c = (c', acts, r)) :
    (r = true → ∀ a ∈ acts, Neutral a) ∧ Ordered acts ∧
    ((∃ a ∈ acts, a.isSink = true) ↔
      (c.otaFile.otaType = typeMcu ∧ opts.mcuOta = true ∧ c.otaCb = true) ∨ c.otaFile.otaType = typeBle) := by
  have hne : typeMcu ≠ typeBle := by decide
  rcases toSink_cases h with ⟨hmcu, -, -, rfl⟩ | ⟨hble, hwrite⟩ | ⟨hmcu, hble, -, -, rfl⟩
  · by_cases hcb : opts.mcuOta = true ∧ c.otaCb = true
    · rw [if_pos hcb]
      exact ⟨fun _ => forall_mem_singleton.mpr (neutral_callback _ _ _), .inr (by simp),
        by simp [hmcu, hcb, Action.isSink]⟩
    · rw [if_neg hcb]
      exact ⟨by simp, trivial, by simp [hmcu, hne, hcb]⟩
  · obtain ⟨-, rfl, hr⟩ := writeStaged_cases hwrite
    refine ⟨fun hok => forall_mem_singleton.mpr ?_, .inr (by simp), by simp [hble, Action.isSink]⟩
    rw [(hr.mp hok).1]
    exact fun _ => rfl
  · exact ⟨by simp, trivial, by simp [hmcu, hble]⟩

theorem stagePacket_file (h : stagePacket opts ok data c = some (c', acts, r)) : c'.otaFile = c.otaFile := by
  rcases stagePacket_cases h with ⟨-, rfl, -, -⟩ | ⟨-, full, written, hsink, ⟨-, rfl, -⟩ | ⟨-, -, -, rfl, -⟩⟩
  · rfl
  · rw [toSink_frame hsink]
    rfl
  · rw [toSink_frame hsink]
    rfl

theorem acceptData_file (h : acceptData opts msgId data flushOk lastOk c = some (c', acts, r)) :
    c'.otaFile = c.otaFile := by
  rcases acceptData_cases h with ⟨-, hstage⟩ | ⟨staged, staging, replied, reply, last, hstage, hreply, hlast, -⟩
  · exact (stagePacket_file hstage).trans rfl
  · have hfile := stagePacket_file hstage
    rw [lastPackage_frame hlast, (loopReply_cases hreply).1]
    exact hfile

theorem stagePacket_acts (h : stagePacket opts ok data c = some (c', acts, r)) :
    (r = true → ∀ a ∈ acts, Neutral a) ∧ Ordered acts ∧
    ((∃ a ∈ acts, a.isSink = true) ↔ bufSize ≤ data.length + c.otaBufOffset ∧
      ((c.otaFile.otaType = typeMcu ∧ opts.mcuOta = true ∧ c.otaCb = true) ∨ c.otaFile.otaType = typeBle)) := by
  rcases stagePacket_cases h with ⟨hroom, rfl, rfl, rfl⟩ | ⟨hfull, full, written, hsink, hcase⟩
  · exact ⟨by simp, trivial, by simp [Nat.not_le.mpr hroom]⟩
  · obtain ⟨hneutral, hordered, hiff⟩ := toSink_acts hsink
    rcases hcase with ⟨rfl, rfl, rfl⟩ | ⟨rfl, -, -, rfl, rfl⟩
    · exact ⟨by simp, hordered, by simpa [hfull, stage] using hiff⟩
    · have hprogress : ∀ a ∈ (if full.otaCb then
          [Action.callback full.otaFile.otaType .dataProgress [percent full]] else []),
          Neutral a ∧ a.isSink = false := by
        split
        · exact forall_mem_singleton.mpr ⟨neutral_callback _ _ _, rfl⟩
        · exact fun _ ha => absurd ha not_mem_nil
      refine ⟨fun _ => forall_mem_append.mpr ⟨hneutral rfl, fun a ha => (hprogress a ha).1⟩, ?_, ?_⟩
      · exact ordered_of_neutral (hneutral rfl) (ordered_of_sinkFree fun a ha => (hprogress a ha).2)
      · rw [exists_sink_append fun a ha => (hprogress a ha).2]
        simpa [hfull, stage] using hiff

theorem loopReply_acts (h : loopReply opts msgId c = (c', acts)) : ∀ a ∈ acts, Neutral a ∧ a.isSink = false := by
  rcases (loopReply_cases h).2 with rfl | rfl | rfl
  · exact fun _ ha => absurd ha not_mem_nil
  · exact forall_mem_singleton.mpr ⟨neutral_callback _ _ _, rfl⟩
  · exact forall_mem_singleton.mpr ⟨neutral_post _ _ _ _, rfl⟩

theorem lastPackage_acts (h : lastPackage ok msgId c = (c', acts, r)) :
    Ordered acts ∧ (r = true → ∀ a ∈ acts, Neutral a) ∧
    ((∃ a ∈ acts, a.isSink = true) ↔ c.otaFile.fileSize ≤ c.otaDownloadFileSize ∧
      c.otaFile.otaType = typeBle ∧ c.otaBufOffset ≠ 0) := by
  have hrsp (c : Context) : Neutral (dataRsp msgId Com.noErr c) := neutral_post _ _ _ _
  rcases lastPackage_cases h with ⟨hmore, -, rfl, -⟩ | ⟨hlast, ⟨hble, hoff, after, written, hwrite, hcase⟩ |
    ⟨-, -, ⟨hble, hoff, rfl⟩ | ⟨hble, rfl⟩⟩⟩
  · exact ⟨trivial, by simp, by simp [Nat.not_le.mpr hmore]⟩
  · obtain ⟨-, rfl, hr⟩ := writeStaged_cases hwrite
    rcases hcase with ⟨rfl, -, rfl⟩ | ⟨rfl, -, rfl⟩
    · exact ⟨.inr (by simp), by simp, by simp [hlast, hble, hoff, Action.isSink]⟩
    · refine ⟨.inr (by simp [dataRsp, Action.isSink]), fun _ => ?_, by simp [hlast, hble, hoff, Action.isSink]⟩
      rw [(hr.mp rfl).1]
      exact forall_mem_cons.mpr ⟨fun _ => rfl, forall_mem_singleton.mpr (hrsp after)⟩
  · exact ⟨.inr (by simp), fun _ => forall_mem_singleton.mpr (hrsp c), by simp [hoff, dataRsp, Action.isSink]⟩
  · exact ⟨trivial, by simp, by simp [hble]⟩

/-- The packet with the expected number: what it does goes to the sink exactly if it
fills the buffer or completes a BLE image. -/
theorem acceptData_acts (h : acceptData opts msgId data flushOk lastOk c = some (c', acts, r)) :
    Ordered acts ∧
    ((∃ a ∈ acts, a.isSink = true) ↔
      (c.otaFile.otaType = typeMcu ∧ opts.mcuOta = true ∧ c.otaCb = true ∧
        bufSize ≤ data.length + c.otaBufOffset) ∨
      (c.otaFile.otaType = typeBle ∧ (bufSize ≤ data.length + c.otaBufOffset ∨
        (c.otaFile.fileSize ≤ (c.otaDownloadFileSize + data.length) % 2 ^ 32 ∧
          c.otaBufOffset + data.length ≠ 0)))) := by
  rcases acceptData_cases h with ⟨rfl, hstage⟩ | ⟨staged, staging, replied, reply, lastActs, hstage, hreply, hlast, rfl⟩
  · -- a flash error on the flush: the buffer was full
    obtain ⟨-, hordered, hiff⟩ := stagePacket_acts hstage
    refine ⟨hordered, hiff.trans ?_⟩
    rcases stagePacket_cases hstage with ⟨-, -, -, hr⟩ | ⟨hfull, -⟩
    · cases hr
    · simp only [inSequence] at hfull ⊢
      simp only [hfull, true_and, and_true, true_or]
  · obtain ⟨hneutral, -, hiff⟩ := stagePacket_acts hstage
    have hquiet := loopReply_acts hreply
    obtain ⟨hordered, -, hiff'⟩ := lastPackage_acts hlast
    refine ⟨ordered_of_neutral (forall_mem_append.mpr ⟨hneutral rfl, fun a ha => (hquiet a ha).1⟩) hordered, ?_⟩
    have hmem : (∃ a ∈ staging ++ reply ++ lastActs, a.isSink = true) ↔
        (∃ a ∈ staging, a.isSink = true) ∨ ∃ a ∈ lastActs, a.isSink = true := by
      simp only [mem_append, or_and_right, exists_or, not_exists_sink fun a ha => (hquiet a ha).2, or_false]
    rw [hmem, hiff, hiff', (loopReply_cases hreply).1]
    rcases stagePacket_cases hstage with ⟨hroom, rfl, -, -⟩ | ⟨hfull, -⟩
    · -- nothing flushed: only the last package can write
      simp only [inSequence] at hroom ⊢
      simp only [Nat.not_le.mpr hroom, false_and, and_false, false_or, stage]
      exact ⟨fun ⟨h1, h2, h3⟩ => ⟨h2, h1, h3⟩, fun ⟨h2, h1, h3⟩ => ⟨h1, h2, h3⟩⟩
    · rw [stagePacket_file hstage]
      simp only [inSequence] at hfull ⊢
      simp only [hfull, true_and, and_true, true_or]
      exact ⟨fun hcase => hcase.elim id fun hl => .inr hl.2.1, .inl⟩

def Action.ofData : Action → Bool
  | .flashWrite _ _ _ => true
  | .callback _ .data _ => true
  | .callback _ .dataProgress _ => true
  | _ => false

theorem Action.isSink_of_ofData (h : a.ofData = false) : a.isSink = false := by
  cases a with
  | flashWrite => cases h
  | callback otaType event payload => cases event <;> first | rfl | cases h
  | _ => rfl

theorem verHandle_ofData (msgId : UInt8) (data : Bytes) (c : Context) :
    ∀ a ∈ verHandle msgId data c, a.ofData = false := by
  intro a ha
  unfold verHandle at ha
  dsimp only at ha
  repeat' split at ha
  all_goals simp only [mem_singleton, not_mem_nil] at ha
  all_goals rw [ha]; rfl

theorem reqHandle_ofData (opts : Options) (msgId : UInt8) (data : Bytes) (answer : Int) (posted : Bool)
    (c : Context) : ∀ a ∈ (reqHandle opts msgId data answer posted c).2, a.ofData = false := by
  have hasked (c : Context) : ∀ a ∈ (askUser opts answer c).2, a.ofData = false := by
    intro a ha
    unfold askUser at ha
    repeat' split at ha
    all_goals simp only [mem_singleton, not_mem_nil] at ha
    all_goals rw [ha]; rfl
  intro a ha
  unfold reqHandle at ha
  split at ha
  · cases ha
  · dsimp only at ha
    split at ha
    · rcases mem_append.mp ha with ha | ha
      · exact hasked _ a ha
      · simp only [mem_cons, not_mem_nil, or_false] at ha
        rcases ha with rfl | rfl <;> rfl
    · simp only [mem_cons, not_mem_nil, or_false] at ha
      rcases ha with rfl | rfl <;> rfl

theorem verifyHandle_ofData (opts : Options) (msgId : UInt8) (valid : Bool) (c : Context) :
    ∀ a ∈ (verifyHandle opts msgId valid c).2, a.ofData = false := by
  intro a ha
  unfold verifyHandle at ha
  rcases mem_append.mp ha with ha | ha
  · repeat' split at ha
    all_goals simp only [mem_cons, not_mem_nil, or_false] at ha
    all_goals rcases ha with rfl | rfl <;> rfl
  · rw [mem_singleton.mp ha]
    rfl

theorem timerCallback_ofData (c : Context) : ∀ a ∈ (timerCallback c).2, a.ofData = false := by
  intro a ha
  unfold timerCallback at ha
  dsimp only at ha
  repeat' split at ha
  all_goals simp only [mem_cons, not_mem_nil, or_false] at ha
  · rcases ha with rfl | rfl | rfl <;> rfl
  · rw [ha]
    rfl

theorem dispatch_ofData (h : dispatch opts c e = some (c', acts))
    (he : ∀ msgId data flushOk lastOk, e ≠ .data msgId data flushOk lastOk) : ∀ a ∈ acts, a.ofData = false := by
  cases e with
  | queryVer msgId data =>
    cases h
    exact verHandle_ofData msgId data c
  | request msgId data answer posted =>
    cases h
    intro a ha
    rcases mem_append.mp ha with ha | ha
    · simp only [mem_cons, not_mem_nil, or_false] at ha
      rcases ha with rfl | rfl <;> rfl
    · exact reqHandle_ofData _ _ _ _ _ _ a ha
  | data msgId data flushOk lastOk => exact absurd rfl (he _ _ _ _)
  | verify msgId valid =>
    simp only [dispatch] at h
    split at h
    · cases h
      simp
    · cases h
      exact verifyHandle_ofData opts msgId valid c
  | timer =>
    have hacts : (timerCallback c).2 = acts := congrArg Prod.snd (Option.some.inj h)
    exact hacts ▸ timerCallback_ofData c
  | disconnected =>
    cases h
    simp [Action.ofData]

theorem dispatch_data_acts (h : dispatch opts c (.data msgId data flushOk lastOk) = some (c', acts)) :
    Ordered acts ∧ ((∃ a ∈ acts, a.isSink = true) ↔ Flushes opts c (.data msgId data flushOk lastOk)) := by
  rcases dispatch_data_cases h with ⟨hoff, -, rfl⟩ | ⟨hon, ⟨hseq, -, rfl⟩ | ⟨hseq, taken, did, r, haccept, hcase⟩⟩
  · exact ⟨trivial, by simp [Flushes, hoff]⟩
  · exact ⟨.inr (by simp), by simp [Flushes, hseq, dataRsp, Action.isSink]⟩
  · obtain ⟨hordered, hiff⟩ := acceptData_acts haccept
    have hflush : (∃ a ∈ did, a.isSink = true) ↔ Flushes opts c (.data msgId data flushOk lastOk) := by
      rw [hiff]
      simp only [Flushes, hon, hseq, true_and]
    rcases hcase with ⟨-, -, rfl⟩ | ⟨-, -, rfl⟩
    · exact ⟨hordered, hflush⟩
    · have hafter : ∀ a ∈ [Action.flashError, dataRsp msgId Com.errSystem taken], a.isSink = false := by
        simp [Action.isSink, dataRsp]
      exact ⟨ordered_append hordered hafter, (exists_sink_append hafter).trans hflush⟩

/-- **One step.** Its actions come in an order that the gate can follow, and something
goes to the sink exactly if the event is a packet that flushes. -/
theorem dispatch_acts (h : dispatch opts c e = some (c', acts)) :
    Ordered acts ∧ ((∃ a ∈ acts, a.isSink = true) ↔ Flushes opts c e) := by
  have hfree (he : ∀ msgId data flushOk lastOk, e ≠ .data msgId data flushOk lastOk) (hnot : ¬ Flushes opts c e) :
      Ordered acts ∧ ((∃ a ∈ acts, a.isSink = true) ↔ Flushes opts c e) := by
    have hnone : ∀ a ∈ acts, a.isSink = false := fun a ha => Action.isSink_of_ofData (dispatch_ofData h he a ha)
    exact ⟨ordered_of_sinkFree hnone, iff_of_false (not_exists_sink hnone) hnot⟩
  cases e with
  | data msgId data flushOk lastOk => exact dispatch_data_acts h
  | queryVer | request | verify | timer | disconnected => exact hfree (fun _ _ _ _ => nofun) id

/-! ### Runs -/

theorem machine_step {o : Shown} (h : (machine opts).step c e = some (c', o)) :
    o.before = c ∧ dispatch opts c e = some (c', o.acts) := by
  simp only [machine, Option.map_eq_some_iff, Prod.mk.injEq] at h
  obtain ⟨r, hr, rfl, rfl⟩ := h
  exact ⟨rfl, hr⟩

theorem trace_step {events : List Event} (hrun : (machine opts).run c events = some (c', trace)) :
    ∀ x ∈ trace, ∃ after, dispatch opts x.2.before x.1 = some (after, x.2.acts) := by
  refine (machine opts).run_invariant_always
    (fun past _ => ∀ x ∈ past, ∃ after, dispatch opts x.2.before x.1 = some (after, x.2.acts))
    (fun past s e s' o hpast hs => forall_snoc hpast ?_) (by simp) hrun
  obtain ⟨hbefore, hdispatch⟩ := machine_step hs
  exact ⟨s', by rw [hbefore]; exact hdispatch⟩

/-- An action of a run belongs to one of its steps. -/
theorem actions_split (h : actions trace = before ++ a :: after) :
    ∃ earlier x later b b', trace = earlier ++ x :: later ∧ x.2.acts = b ++ a :: b' ∧
      before = actions earlier ++ b := by
  induction trace generalizing before with
  | nil => simp [actions] at h
  | cons x rest ih =>
    have hcons : actions (x :: rest) = x.2.acts ++ actions rest := rfl
    rw [hcons, append_eq_append_iff] at h
    rcases h with ⟨tail, hbefore, hrest⟩ | ⟨tail, hacts, hrest⟩
    · obtain ⟨earlier, y, later, b, b', rfl, hy, rfl⟩ := ih hrest
      exact ⟨x :: earlier, y, later, b, b', rfl, hy, by rw [hbefore]; simp [actions]⟩
    · cases tail with
      | nil =>
        have hfirst : actions rest = [] ++ a :: after := hrest.symm
        obtain ⟨earlier, y, later, b, b', rfl, hy, hnil⟩ := ih hfirst
        refine ⟨x :: earlier, y, later, b, b', rfl, hy, ?_⟩
        rw [append_nil] at hacts
        obtain ⟨h1, h2⟩ := append_eq_nil_iff.mp hnil.symm
        rw [← hacts, h2]
        simp only [actions, flatMap_cons, append_nil]
        simp only [actions] at h1
        rw [h1, append_nil]
      | cons a' tail =>
        obtain ⟨rfl, -⟩ := hrest
        exact ⟨[], x, rest, before, tail, rfl, hacts, rfl⟩

/-- **The gate.** In every run of the update, data reaches the flash or the MCU only
between an accepted request and the end of its session or a flash error, if and only
if no packet that flushes arrives outside of that. -/
theorem gated_iff (opts : Options) (bleVer mcuVer : Ver) (otaCb : Bool) (c : Context) (events : List Event)
    (trace : List (Event × Shown)) (hrun : (machine opts).run (init bleVer mcuVer otaCb) events = some (c, trace)) :
    Gated (actions trace) ↔
      ∀ before x after, trace = before ++ x :: after → gate (actions before) = false →
        ¬ Flushes opts x.2.before x.1 := by
  have hsteps := trace_step hrun
  constructor
  · intro hgated before x after htrace hclosed hflush
    obtain ⟨_, hdispatch⟩ := hsteps x (by rw [htrace]; simp)
    obtain ⟨hordered, hiff⟩ := dispatch_acts hdispatch
    obtain ⟨a, ha, hsink⟩ := hiff.mpr hflush
    obtain ⟨b, b', hacts⟩ := append_of_mem ha
    have hall : actions trace = (actions before ++ b) ++ a :: (b' ++ actions after) := by
      rw [htrace]
      simp [actions, hacts]
    have hopen := hgated _ a _ hall hsink
    rw [gate, foldl_append, ← gate, hclosed, foldl_gateStep_of_ordered hordered hacts hsink] at hopen
    cases hopen
  · intro hcond before a after hacts hsink
    obtain ⟨earlier, x, later, b, b', htrace, hx, rfl⟩ := actions_split hacts
    obtain ⟨_, hdispatch⟩ := hsteps x (by rw [htrace]; simp)
    obtain ⟨hordered, hiff⟩ := dispatch_acts hdispatch
    have hflush := hiff.mp ⟨a, by rw [hx]; simp, hsink⟩
    rw [gate, foldl_append, ← gate, foldl_gateStep_of_ordered hordered hx hsink]
    cases hgate : gate (actions earlier) with
    | true => rfl
    | false => exact absurd hflush (hcond earlier x later htrace hgate)

def bothImages : Options := ⟨true, false⟩

def refusedThenData : List Event := [.request 0 [typeBle] Reason.normal true, .data 0 [0xAA] true true]

def smallRequest : Bytes := [typeBle, 1, 0, 0, hashCrc32, 1, 2, 3, 4, 0, 0, 0, 4]

/-- An accepted session: the gate is open when its only packet is written. -/
theorem gated_iff_small :
    ∃ (c : Context) (trace : List (Event × Shown)),
      (machine bothImages).run (init {} {} true)
        [.request 0 smallRequest Reason.normal true, .data 0 [1, 2, 3, 4] true true] = some (c, trace) ∧
      c.status = .fwVerify ∧
      (Gated (actions trace) ↔ ∀ before x after, trace = before ++ x :: after → gate (actions before) = false →
        ¬ Flushes bothImages x.2.before x.1) :=
  ⟨_, _, rfl, rfl, gated_iff bothImages {} {} true _
    [.request 0 smallRequest Reason.normal true, .data 0 [1, 2, 3, 4] true true] _ rfl⟩

/-- The packet behind the refused request is written to the flash. -/
theorem refused_request_writes :
    ¬ ∀ (opts : Options) (bleVer mcuVer : Ver) (otaCb : Bool) (c : Context) (events : List Event)
      (trace : List (Event × Shown)),
      (machine opts).run (init bleVer mcuVer otaCb) events = some (c, trace) → Gated (actions trace) := by
  intro hall
  have hgated := hall bothImages {} {} true _ refusedThenData _ rfl
  have hopen := hgated [.reset, .flashStart, reqRsp 0 Com.errInvalidPara Reason.normal,
    .request false Reason.normal true] (.flashWrite 0 [0xAA] true) [.post 0 Cmd.otaData Com.noErr [0, 0, 0, 0, 1]]
    rfl rfl
  exact absurd hopen (by decide)

end Qumios.Ble.Ota
