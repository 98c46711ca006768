import Qumios.Comm.Receiver

/-! The frames do not depend on how the bytes come in.

A round looks at no byte behind the ones it reads (`round_push`), so what the loop has
done with the bytes it had is what it does first when it has more of them
(`loop_push`). Taken over a run: whatever the chunks, the receiver does with them what
it does with all the bytes at once. -/
namespace Qumios.Comm
open Run List

section Rounds
variable {σ : Type} {cfg : Config σ} {s s' : State σ} {frames : List Bytes}

def State.push (s : State σ) (more : Bytes) : State σ := { s with buf := s.buf ++ more }

theorem push_nil (s : State σ) : s.push [] = s := by simp [State.push]

theorem push_push (s : State σ) (a b : Bytes) : (s.push a).push b = s.push (a ++ b) := by simp [State.push]

/-- Steps have been registered, the first of them of one byte at least. -/
structure Config.Sound (cfg : Config σ) : Prop where
  steps : 0 < cfg.stepNum
  first : ∀ user, 0 < cfg.recvLenGet user 0

/-- The receiver between two rounds. -/
structure State.Sound (cfg : Config σ) (s : State σ) : Prop where
  step : s.curStep < cfg.stepNum
  read : s.readLen ≤ s.buf.length
  begun : s.curStep ≠ 0 → 0 < s.readLen

theorem State.Sound.push (h : s.Sound cfg) (more : Bytes) : (s.push more).Sound cfg :=
  ⟨h.step, by simp only [State.push, length_append]; exact Nat.le_add_right_of_le h.read, h.begun⟩

def checked (cfg : Config σ) (s : State σ) : State σ × Bool :=
  let needRecvLen := cfg.recvLenGet s.user s.curStep
  let res := cfg.recvCheck s.user s.curStep ((s.buf.drop s.readLen).take needRecvLen)
  ({ s with user := res.1, readLen := s.readLen + needRecvLen, curStep := s.curStep + 1 }, res.2)

def Ready (cfg : Config σ) (s : State σ) : Prop := cfg.recvLenGet s.user s.curStep ≤ s.buf.length - s.readLen

theorem round_of_not_ready (h : ¬ Ready cfg s) : round cfg s = none := if_pos (Nat.lt_of_not_le h)

theorem round_of_ready (h : Ready cfg s) : round cfg s =
    if (checked cfg s).2 = false then some (rewind (checked cfg s).1, [])
    else if s.curStep + 1 = cfg.stepNum then
      some (rewind (dispatch cfg (checked cfg s).1).1, (dispatch cfg (checked cfg s).1).2)
    else some ((checked cfg s).1, []) := by
  refine (if_neg (Nat.not_lt.mpr h)).trans ?_
  cases hok : (checked cfg s).2 with
  | false =>
    have hok : (cfg.recvCheck s.user s.curStep _).2 = false := hok
    simp only [hok]
    rfl
  | true =>
    have hok : (cfg.recvCheck s.user s.curStep _).2 = true := hok
    simp only [hok]
    rfl

theorem checked_push (more : Bytes) (hr : s.readLen ≤ s.buf.length) (h : Ready cfg s) :
    checked cfg (s.push more) = ((checked cfg s).1.push more, (checked cfg s).2) := by
  have hread : ((s.buf ++ more).drop s.readLen).take (cfg.recvLenGet s.user s.curStep) =
      (s.buf.drop s.readLen).take (cfg.recvLenGet s.user s.curStep) := by
    rw [drop_append_of_le_length hr, take_append_of_le_length (by rw [length_drop]; exact h)]
  simp only [checked, State.push, hread]

theorem rewind_push (more : Bytes) (hr : s.readLen ≤ s.buf.length) :
    rewind (s.push more) = (rewind s).push more := by
  simp only [rewind, State.push, drop_append_of_le_length hr]

theorem dispatch_frame (cfg : Config σ) (s : State σ) :
    (dispatch cfg s).1.buf = s.buf ∧ (dispatch cfg s).1.readLen = s.readLen := by
  rw [dispatch]
  dsimp only
  split
  · exact ⟨rfl, rfl⟩
  · split
    · exact ⟨rfl, rfl⟩
    · split <;> exact ⟨rfl, rfl⟩

theorem dispatch_push (more : Bytes) (hr : s.readLen ≤ s.buf.length) :
    dispatch cfg (s.push more) = ((dispatch cfg s).1.push more, (dispatch cfg s).2) := by
  have hframe : (s.buf ++ more).take s.readLen = s.buf.take s.readLen := take_append_of_le_length hr
  simp only [dispatch, State.push, hframe]
  split
  · rfl
  · split
    · rfl
    · split <;> rfl

theorem checked_read (hr : s.readLen ≤ s.buf.length) (h : Ready cfg s) :
    (checked cfg s).1.readLen ≤ (checked cfg s).1.buf.length := by
  exact Nat.add_le_of_le_sub' hr h

theorem Ready.push (more : Bytes) (h : Ready cfg s) : Ready cfg (s.push more) := by
  show cfg.recvLenGet s.user s.curStep ≤ (s.buf ++ more).length - s.readLen
  rw [length_append]
  exact Nat.le_trans h (Nat.sub_le_sub_right (Nat.le_add_right _ _) _)

/-- **A round does the same with more bytes in the buffer.** -/
theorem round_push (more : Bytes) (hr : s.readLen ≤ s.buf.length) (h : round cfg s = some (s', frames)) :
    round cfg (s.push more) = some (s'.push more, frames) := by
  by_cases hready : Ready cfg s
  · have hc := checked_read hr hready
    rw [round_of_ready hready] at h
    rw [round_of_ready (hready.push more), checked_push more hr hready, dispatch_push more hc,
      rewind_push more hc, rewind_push more (by rw [(dispatch_frame cfg _).1, (dispatch_frame cfg _).2]; exact hc)]
    split at h
    · rw [if_pos ‹_›]
      cases h
      rfl
    · rw [if_neg ‹_›]
      split at h
      · rw [if_pos (by assumption)]
        cases h
        rfl
      · rw [if_neg (by assumption)]
        cases h
        rfl
  · rw [round_of_not_ready hready] at h
    cases h

def work (cfg : Config σ) (s : State σ) : Nat := s.buf.length * cfg.stepNum + (cfg.stepNum - s.curStep)

/-- A frame that ends, well or not, has read a byte at least. -/
theorem rewind_sound (hc : cfg.Sound) (hs : s.curStep < cfg.stepNum) {t : State σ} (hbuf : t.buf.length = s.buf.length)
    (hread : 0 < t.readLen ∧ t.readLen ≤ t.buf.length) :
    (rewind t).Sound cfg ∧ work cfg (rewind t) < work cfg s := by
  refine ⟨⟨hc.steps, Nat.zero_le _, fun h => absurd rfl h⟩, ?_⟩
  have hlt : (rewind t).buf.length + 1 ≤ s.buf.length := by
    simp only [rewind, length_drop]
    omega
  have hmul := Nat.mul_le_mul_right cfg.stepNum hlt
  rw [Nat.succ_mul] at hmul
  have hzero : (rewind t).curStep = 0 := rfl
  simp only [work, hzero, Nat.sub_zero]
  omega

/-- A round keeps the receiver sound and leaves fewer rounds to come. -/
theorem round_sound (hc : cfg.Sound) (hs : s.Sound cfg) (h : round cfg s = some (s', frames)) :
    s'.Sound cfg ∧ work cfg s' < work cfg s := by
  by_cases hready : Ready cfg s
  · have hle := checked_read hs.read hready
    have hpos : 0 < (checked cfg s).1.readLen := by
      show 0 < s.readLen + cfg.recvLenGet s.user s.curStep
      by_cases h0 : s.curStep = 0
      · rw [h0]
        exact Nat.add_pos_right _ (hc.first s.user)
      · exact Nat.add_pos_left (hs.begun h0) _
    obtain ⟨hbuf, hread⟩ := dispatch_frame cfg (checked cfg s).1
    rw [round_of_ready hready] at h
    split at h
    · cases h
      exact rewind_sound hc hs.step rfl ⟨hpos, hle⟩
    · split at h
      · cases h
        exact rewind_sound hc hs.step (congrArg _ hbuf) ⟨hread ▸ hpos, by rw [hread, hbuf]; exact hle⟩
      · cases h
        have hstep := hs.step
        have hnext : (checked cfg s).1.curStep = s.curStep + 1 := rfl
        have hsame : (checked cfg s).1.buf = s.buf := rfl
        refine ⟨⟨by omega, hle, fun _ => hpos⟩, ?_⟩
        simp only [work, hnext, hsame]
        omega
  · rw [round_of_not_ready hready] at h
    cases h

end Rounds

section Loops
variable {σ : Type} {cfg : Config σ} {s t u : State σ} {frames more : List Bytes}

/-- The rounds from a state on, up to the one that waits. -/
inductive Settles (cfg : Config σ) : State σ → State σ → List Bytes → Prop
  | wait {s : State σ} (h : round cfg s = none) : Settles cfg s s []
  | more {s s' t : State σ} {first rest : List Bytes} (h : round cfg s = some (s', first))
      (ht : Settles cfg s' t rest) : Settles cfg s t (first ++ rest)

/-- The loop comes to an end, and leaves the receiver sound and waiting. -/
theorem loop_settles (hc : cfg.Sound) (hs : s.Sound cfg) {rounds : Nat} (hw : work cfg s < rounds) :
    ∃ t frames, loop cfg rounds s = some (t, frames) ∧ Settles cfg s t frames ∧ t.Sound cfg := by
  induction rounds generalizing s with
  | zero => exact absurd hw (Nat.not_lt_zero _)
  | succ rounds ih =>
    rw [loop]
    cases h : round cfg s with
    | none => exact ⟨s, [], rfl, .wait h, hs⟩
    | some p =>
      obtain ⟨s', first⟩ := p
      obtain ⟨hs', hless⟩ := round_sound hc hs h
      obtain ⟨t, rest, hl, hset, ht⟩ := ih hs' (by omega)
      refine ⟨t, first ++ rest, ?_, .more h hset, ht⟩
      dsimp only
      rw [hl]

theorem Settles.unique (h : Settles cfg s t frames) (h' : Settles cfg s u more) : t = u ∧ frames = more := by
  induction h generalizing more with
  | wait hr =>
    cases h' with
    | wait => exact ⟨rfl, rfl⟩
    | more hr' => cases hr.symm.trans hr'
  | more hr _ ih =>
    cases h' with
    | wait hr' => cases hr'.symm.trans hr
    | more hr' hrest =>
      cases hr.symm.trans hr'
      obtain ⟨rfl, rfl⟩ := ih hrest
      exact ⟨rfl, rfl⟩

/-- **What the rounds have done with the bytes they had, they do first when there are more.** -/
theorem Settles.push {bytes : Bytes} (hc : cfg.Sound) (hs : s.Sound cfg) (h : Settles cfg s t frames)
    (h' : Settles cfg (t.push bytes) u more) : Settles cfg (s.push bytes) u (frames ++ more) := by
  induction h with
  | wait => exact h'
  | more hr _ ih =>
    rw [append_assoc]
    exact .more (round_push bytes hs.read hr) (ih (round_sound hc hs hr).1 h')

end Loops

section Runs
variable {σ : Type} {cfg : Config σ} {s t : State σ}

def Calm (cfg : Config σ) (s : State σ) (chunk : Chunk) : Prop :=
  chunk.expired = false ∧ s.buf.length + chunk.data.length ≤ cfg.bufMaxLen

instance : ∀ (s : State σ) (chunk : Chunk), Decidable (Calm cfg s chunk) := fun _ _ =>
  inferInstanceAs (Decidable (_ ∧ _))

/-- Where the receiver stands between two chunks. -/
structure Waiting (cfg : Config σ) (s : State σ) : Prop where
  sound : s.Sound cfg
  idle : round cfg s = none

theorem Settles.idle {frames : List Bytes} (h : Settles cfg s t frames) : round cfg t = none := by
  induction h with
  | wait h => exact h
  | more _ _ ih => exact ih

theorem recvHandler_settles {chunk : Chunk} (hc : cfg.Sound) (hs : s.Sound cfg) (hcalm : Calm cfg s chunk) :
    ∃ t frames, recvHandler cfg s chunk = some (t, frames) ∧ Settles cfg (s.push chunk.data) t frames ∧
      t.Sound cfg := by
  have hin := hs.push chunk.data
  have hwork : work cfg (s.push chunk.data) < ((s.push chunk.data).buf.length + 1) * cfg.stepNum + 1 := by
    rw [work, Nat.succ_mul]
    omega
  obtain ⟨t, frames, hloop, hset, ht⟩ := loop_settles hc hin hwork
  refine ⟨t, frames, ?_, hset, ht⟩
  have hquiet : ¬ (s.curStep ≠ 0 ∧ chunk.expired = true) := fun h => Bool.false_ne_true (hcalm.1.symm.trans h.2)
  simp only [recvHandler, if_neg hquiet]
  exact (if_neg (Nat.not_lt.mpr hcalm.2)).trans hloop

def stream (chunks : List Chunk) : Bytes := chunks.flatMap Chunk.data

/-- **Taken together, the chunks do what all their bytes do at once.** -/
theorem run_settles {chunks : List Chunk} (hc : cfg.Sound) (hs : Waiting cfg s)
    (hm : (machine cfg).Meets (Calm cfg) s chunks) :
    ∃ t trace, (machine cfg).run s chunks = some (t, trace) ∧
      Settles cfg (s.push (stream chunks)) t (dispatched trace) := by
  induction chunks generalizing s with
  | nil => exact ⟨s, [], rfl, by rw [stream, flatMap_nil, push_nil]; exact .wait hs.idle⟩
  | cons chunk rest ih =>
    obtain ⟨s', frames, hstep, hset, hs'⟩ := recvHandler_settles hc hs.sound hm.1
    obtain ⟨t, trace, hrun, hrest⟩ := ih ⟨hs', hset.idle⟩ (hm.2 s' frames hstep)
    refine ⟨t, (chunk, frames) :: trace, (machine cfg).run_cons_eq_some.mpr ⟨s', frames, trace, hstep, hrun, rfl⟩, ?_⟩
    have := hset.push hc (hs.sound.push _) hrest
    rwa [push_push] at this

/-- **The frames that are dispatched do not depend on the chunks their bytes come in.** The
receiver may stand in front of a frame or in the middle of one. -/
theorem frames_independent_of_chunks (hc : cfg.Sound) (hs : Waiting cfg s) (chunks chunks' : List Chunk)
    (hsame : stream chunks = stream chunks') (hm : (machine cfg).Meets (Calm cfg) s chunks)
    (hm' : (machine cfg).Meets (Calm cfg) s chunks') :
    ∃ t trace trace', (machine cfg).run s chunks = some (t, trace) ∧
      (machine cfg).run s chunks' = some (t, trace') ∧ dispatched trace = dispatched trace' := by
  obtain ⟨t, trace, hrun, hset⟩ := run_settles hc hs hm
  obtain ⟨t', trace', hrun', hset'⟩ := run_settles hc hs hm'
  rw [← hsame] at hset'
  obtain ⟨rfl, hframes⟩ := hset.unique hset'
  exact ⟨t, trace, trace', hrun, hrun', hframes⟩

end Runs

/-! ### A protocol of three steps -/

/-- `0xa5`, a length, and that many bytes, of which the first is the command. The callbacks
remember the length. -/
def lengthPrefixed : Config Nat where
  stepNum := 3
  recvLenGet len step := if step = 2 then len else 1
  recvCheck len step data :=
    if step = 0 then (len, data == [0xa5]) else if step = 1 then (data.headI.toNat, true) else (len, true)
  check len _ := (len, true)
  cmdGet frame := (frame.getD 2 0).toNat
  idGet frame := (frame.getD 3 0).toNat
  cmds := [⟨1, .up, fun len _ => len⟩, ⟨2, .down, fun len _ => len⟩]
  bufMaxLen := 64

theorem lengthPrefixed_sound : lengthPrefixed.Sound := ⟨by decide, fun _ => Nat.one_pos⟩

def oneChunk : List Chunk := [⟨[0x00, 0xa5, 2, 1, 7, 0xa5, 2, 2, 9], false⟩]

def fourChunks : List Chunk := [⟨[0x00, 0xa5], false⟩, ⟨[2, 1], false⟩, ⟨[7, 0xa5, 2, 2], false⟩, ⟨[9], false⟩]

theorem frames_independent_of_chunks_two :
    (∃ t trace trace', (machine lengthPrefixed).run { user := 0, records := [9] } oneChunk = some (t, trace) ∧
      (machine lengthPrefixed).run { user := 0, records := [9] } fourChunks = some (t, trace') ∧
      dispatched trace = dispatched trace') ∧
    ((machine lengthPrefixed).run { user := 0, records := [9] } fourChunks).map (fun r => dispatched r.2) =
      some [[0xa5, 2, 1, 7], [0xa5, 2, 2, 9]] :=
  ⟨frames_independent_of_chunks lengthPrefixed_sound ⟨⟨by decide, by decide, by decide⟩, rfl⟩ oneChunk fourChunks
    rfl (by decide +kernel) (by decide +kernel), by decide +kernel⟩

end Qumios.Comm
