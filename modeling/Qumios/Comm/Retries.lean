import Qumios.Comm.Sender

/-! A command is sent until it is answered or given up.

What is done for a record reads, in order: the frame, then for each timeout a notice and the
frame again, and at the end the notice that there was no answer. `Stage` says how far a
command has come in this, and `Effect` says what a step does. It takes ids that are not
pending twice, since records are found by their id, and answers that do not cross a timeout
in the queue, since a record in the queue is freed all the same. -/
namespace Qumios.Comm.Sender
open Run List

variable {α : Type}

/-! ### What a trace shows -/

def Action.ref : Action → Option Nat
  | .transmit ref _ => ref
  | .notify ref _ _ => some ref
  | .fault => none

def actionsOf (ref : Nat) (trace : List (Event α × Output)) : List Action :=
  trace.flatMap fun x => x.2.actions.filter fun a => a.ref = some ref

theorem actionsOf_snoc (ref : Nat) (trace : List (Event α × Output)) (x : Event α × Output) :
    actionsOf ref (trace ++ [x]) = actionsOf ref trace ++ x.2.actions.filter fun a => a.ref = some ref := by
  rw [actionsOf, flatMap_append, flatMap_singleton]
  rfl

def Info.bytes (info : Info) : Bytes := info.data.take info.len.toNat

/-- A record is sent, and sent again at each of its first `w` timeouts. -/
def sentAgain (ref : Nat) (info : Info) (w : Nat) : List Action :=
  .transmit (some ref) info.bytes ::
    (List.replicate w [.notify ref .resend info, .transmit (some ref) info.bytes]).flatten

theorem sentAgain_succ (ref : Nat) (info : Info) (w : Nat) :
    sentAgain ref info (w + 1) =
      sentAgain ref info w ++ [.notify ref .resend info, .transmit (some ref) info.bytes] := by
  rw [sentAgain, replicate_succ', flatten_append]
  rfl

/-! ### Orderly use -/

/-- Nothing is refused, a frame is sent while none of its id is pending, and an answer is
handled while the record is not in the queue. -/
def Orderly (cfg : Config α) (s : State) : Event α → Prop
  | .send cmd _ _ arg grants =>
    grants = {} ∧ ∀ r ∈ s.records, (frame cfg cmd arg).map cfg.idGet ≠ some r.id
  | .ack id => ∀ r ∈ s.records, r.id = id → r.ref ∉ s.queue
  | .expire _ room => room = true
  | .work timer => timer = true

instance (cfg : Config α) (s : State) : DecidablePred (Orderly cfg s)
  | .send _ _ _ _ _ => inferInstanceAs (Decidable (_ ∧ ∀ r ∈ s.records, _))
  | .ack _ => inferInstanceAs (Decidable (∀ r ∈ s.records, _ → _))
  | .expire _ _ => inferInstanceAs (Decidable (_ = _))
  | .work _ => inferInstanceAs (Decidable (_ = _))

/-- The records are told apart by their place and by their id, and each has a timer that runs or
is in the queue. -/
structure Sound (s : State) : Prop where
  refs : (s.records.map Record.ref).Nodup
  ids : (s.records.map Record.id).Nodup
  below : ∀ r ∈ s.records, r.ref < s.next
  whole : ∀ r ∈ s.records, r.data.isSome
  once : s.queue.Nodup
  queued : ∀ q ∈ s.queue, ∃ r ∈ s.records, r.ref = q ∧ r.started = false
  driven : ∀ r ∈ s.records, r.started = true ∨ r.ref ∈ s.queue

theorem ne_of_split {β γ : Type} {f : β → γ} {xs a b : List β} {x : β} (h : (xs.map f).Nodup)
    (hsplit : xs = a ++ x :: b) : ∀ y ∈ a ++ b, f y ≠ f x := by
  intro y hy heq
  rw [hsplit, map_append, map_cons, nodup_middle, ← map_append] at h
  exact (nodup_cons.mp h).1 (heq ▸ mem_map_of_mem hy)

theorem find?_split {β : Type} {p : β → Bool} {a b : List β} {x : β} (hfront : ∀ y ∈ a, ¬ p y = true)
    (hx : p x = true) : (a ++ x :: b).find? p = some x := by
  rw [find?_append, find?_eq_none.mpr hfront, find?_cons_of_pos hx]
  rfl

/-! ### What a step does -/

def Record.info (r : Record) (data : Bytes) : Info := ⟨r.cmd, r.id, data, r.len⟩

def Record.first (cfg : Config α) (ref : Nat) (data : Bytes) (count : Int) (timeout : Nat) : Record :=
  ⟨ref, cfg.cmdGet data, cfg.idGet data, some data, UInt8.ofNat data.length, UInt8.ofInt count - 1, timeout, true⟩

def Event.outer : Event α → Bool
  | .send .. | .ack _ => true
  | .expire .. | .work _ => false

/-- What an orderly step does, by what becomes of a record. -/
inductive Effect (cfg : Config α) (s : State) (e : Event α) : State → Output → Prop
  | idle {out : Output} (houter : e.outer = true) (hquiet : ∀ a ∈ out.actions, a.ref = none ∧ a ≠ .fault)
      (hfound : out.found = none)
      (hsend : ∀ cmd count timeout arg grants data, e = .send cmd count timeout arg grants → count ≠ 0 →
        timeout ≠ 0 → frame cfg cmd arg = some data → data.length = 0) : Effect cfg s e s out
  | create {cmd count : Int} {timeout : Nat} {arg : α} {grants : Grants} {data : Bytes}
      (hsend : e = .send cmd count timeout arg grants) (hframe : frame cfg cmd arg = some data)
      (hid : ∀ r ∈ s.records, r.id ≠ cfg.idGet data) :
      Effect cfg s e
        { s with records := s.records ++ [.first cfg s.next data count timeout], next := s.next + 1 }
        { actions := [.transmit (some s.next) (data.take (UInt8.ofNat data.length).toNat)] }
  | expire {a b : List Record} {r : Record} {room : Bool} (hevent : e = .expire r.ref room)
      (hsplit : s.records = a ++ r :: b) (hstarted : r.started = true) :
      Effect cfg s e { s with records := a ++ { r with started := false } :: b, queue := s.queue ++ [r.ref] } {}
  | resend {a b : List Record} {r : Record} {rest : List Nat} {data : Bytes} {timer : Bool} (hevent : e = .work timer)
      (hsplit : s.records = a ++ r :: b) (hqueue : s.queue = r.ref :: rest) (hdata : r.data = some data)
      (hcount : r.sendCount ≠ 0) :
      Effect cfg s e
        { s with records := a ++ { r with started := true, sendCount := r.sendCount - 1 } :: b, queue := rest }
        { actions := [.notify r.ref .resend (r.info data), .transmit (some r.ref) (r.info data).bytes] }
  | giveUp {a b : List Record} {r : Record} {rest : List Nat} {data : Bytes} {timer : Bool} (hevent : e = .work timer)
      (hsplit : s.records = a ++ r :: b) (hqueue : s.queue = r.ref :: rest) (hdata : r.data = some data)
      (hcount : r.sendCount = 0) :
      Effect cfg s e { s with records := a ++ b, queue := rest }
        { actions := [.notify r.ref .noAck (r.info data)] }
  | answer {a b : List Record} {r : Record} (hevent : e = .ack r.id) (hsplit : s.records = a ++ r :: b)
      (hqueue : r.ref ∉ s.queue) : Effect cfg s e { s with records := a ++ b } { found := some r.ref }

section Effects
variable {cfg : Config α} {s : State}

/-- A send makes a record, unless it has no frame to wait for. -/
theorem send_effect (cmd count : Int) (timeout : Nat) (arg : α)
    (hid : ∀ r ∈ s.records, (frame cfg cmd arg).map cfg.idGet ≠ some r.id) :
    Effect cfg s (.send cmd count timeout arg {}) (commBaseCmdSend cfg s cmd count timeout arg {}).1
      (commBaseCmdSend cfg s cmd count timeout arg {}).2 := by
  unfold commBaseCmdSend
  by_cases hparam : count = 0 ∨ timeout = 0
  · rw [if_pos hparam]
    refine .idle rfl (by simp) rfl fun _ _ _ _ _ _ he hc ht => ?_
    cases he
    exact absurd hparam (by simp [hc, ht])
  rw [if_neg hparam]
  cases hops : cmdOpsGet cfg.cmds cmd with
  | none =>
    refine .idle rfl (by simp) rfl fun _ _ _ _ _ _ he _ _ hframe => ?_
    cases he
    simp [frame, hops] at hframe
  | some ops =>
    dsimp only
    cases hpack : ops.call arg with
    | none =>
      refine .idle rfl (by simp) rfl fun _ _ _ _ _ _ he _ _ hframe => ?_
      cases he
      simp [frame, hops, hpack] at hframe
    | some data =>
      cases hdir : ops.dir with
      | up =>
        refine .idle rfl (by simp [Action.ref]) rfl fun _ _ _ _ _ _ he _ _ hframe => ?_
        cases he
        simp [frame, hops, hdir] at hframe
      | down =>
        have hframe : frame cfg cmd arg = some data := by simp [frame, hops, hdir, hpack]
        by_cases hempty : data.length = 0
        · simp only [serialGenericSend, if_pos hempty]
          refine .idle rfl (by simp) rfl fun _ _ _ _ _ _ he _ _ hframe' => ?_
          cases he
          rw [hframe] at hframe'
          cases hframe'
          exact hempty
        · simp only [serialGenericSend, if_neg hempty]
          refine .create rfl hframe fun r hr heq => hid r hr ?_
          rw [hframe, heq]
          rfl

variable {a b : List Record} {r : Record} {out : Output} {ref : Nat} {s' : State} {e : Event α}

/-- Removing by id takes out the one record that has it. -/
theorem recordRemoveById_split (hsplit : s.records = a ++ r :: b) (hids : (s.records.map Record.id).Nodup)
    (hwhole : r.data.isSome) : recordRemoveById s r.id = ({ s with records := a ++ b }, { found := some r.ref }) := by
  have hfront : ∀ x ∈ a, ¬ (x.id == r.id) = true := fun x hx heq =>
    ne_of_split hids hsplit x (mem_append_left b hx) (beq_iff_eq.mp heq)
  have hself : (fun x : Record => x.id == r.id) r = true := beq_self_eq_true r.id
  have hfind : recordFind s r.id = some r := by
    rw [recordFind, hsplit]
    exact find?_split hfront hself
  have herase : (s.records.eraseP fun x => x.id == r.id) = a ++ b := by
    rw [hsplit, eraseP_append_right _ hfront, eraseP_cons_of_pos (p := fun x : Record => x.id == r.id) hself]
  rw [recordRemoveById, hfind]
  simp only [herase, hwhole, if_true]

theorem ack_effect (h : Sound s) {id : Int} (hc : ∀ r ∈ s.records, r.id = id → r.ref ∉ s.queue) :
    Effect cfg s (.ack id) (recordRemoveById s id).1 (recordRemoveById s id).2 := by
  cases hfind : recordFind s id with
  | none =>
    rw [recordRemoveById, hfind]
    exact .idle rfl (by simp) rfl fun _ _ _ _ _ _ he => by cases he
  | some r =>
    have hmem : r ∈ s.records := mem_of_find?_eq_some hfind
    have hid : r.id = id := by simpa using find?_some hfind
    subst hid
    obtain ⟨a, b, hsplit⟩ := append_of_mem hmem
    rw [recordRemoveById_split hsplit h.ids (h.whole r hmem)]
    exact .answer rfl hsplit (hc r hmem rfl)

theorem update_split (f : Record → Record) (hsplit : s.records = a ++ r :: b) (hother : ∀ x ∈ a ++ b, x.ref ≠ r.ref) :
    s.update r.ref f = { s with records := a ++ f r :: b } := by
  have hkeep (xs : List Record) (hxs : ∀ x ∈ xs, x ∈ a ++ b) :
      (xs.map fun x => if x.ref = r.ref then f x else x) = xs := by
    refine (map_congr_left fun x hx => ?_).trans (map_id' xs)
    exact if_neg (hother x (hxs x hx))
  rw [State.update, hsplit, map_append, map_cons, if_pos rfl,
    hkeep a fun x hx => mem_append_left b hx, hkeep b fun x hx => mem_append_right a hx]

theorem expire_effect (h : Sound s) {room : Bool} (hroom : room = true)
    (hstep : step cfg s (.expire ref room) = some (s', out)) : Effect cfg s (.expire ref room) s' out := by
  simp only [step] at hstep
  split at hstep
  case isTrue hexists =>
    obtain ⟨r, hmem, rfl, hstarted⟩ := hexists
    obtain ⟨a, b, hsplit⟩ := append_of_mem hmem
    have hother := ne_of_split h.refs hsplit
    rw [update_split _ hsplit hother] at hstep
    cases hstep
    exact .expire rfl hsplit hstarted
  case isFalse => cases hstep

theorem work_effect (h : Sound s) {timer : Bool} (htimer : timer = true)
    (hstep : step cfg s (.work timer) = some (s', out)) : Effect cfg s (.work timer) s' out := by
  subst htimer
  simp only [step] at hstep
  split at hstep
  · cases hstep
  · next ref rest hqueue =>
    obtain ⟨r, hmem, rfl, -⟩ := h.queued ref (hqueue ▸ mem_cons_self)
    obtain ⟨a, b, hsplit⟩ := append_of_mem hmem
    have hother := ne_of_split h.refs hsplit
    obtain ⟨data, hdata⟩ := Option.isSome_iff_exists.mp (h.whole r hmem)
    have hfind : s.records.find? (fun x => x.ref == r.ref) = some r := by
      rw [hsplit]
      exact find?_split (fun x hx => by simpa using hother x (mem_append_left b hx)) (beq_self_eq_true r.ref)
    rw [hfind] at hstep
    simp only [sendTimeout, hdata] at hstep
    by_cases hcount : r.sendCount = 0
    · rw [recordRemoveById_split (s := { s with queue := rest }) hsplit h.ids (h.whole r hmem)] at hstep
      simp only [if_pos hcount] at hstep
      cases hstep
      exact .giveUp rfl hsplit hqueue hdata hcount
    · rw [update_split (s := { s with queue := rest }) _ hsplit hother] at hstep
      simp only [if_neg hcount, if_true] at hstep
      cases hstep
      exact .resend rfl hsplit hqueue hdata hcount

/-- **What an orderly step does.** -/
theorem step_effect (h : Sound s) (hc : Orderly cfg s e) (hstep : (machine cfg).step s e = some (s', out)) :
    Effect cfg s e s' out := by
  cases e with
  | send cmd count timeout arg grants =>
    obtain ⟨rfl, hid⟩ := hc
    have heffect := send_effect cmd count timeout arg hid
    rwa [show commBaseCmdSend cfg s cmd count timeout arg {} = (s', out) from Option.some.inj hstep] at heffect
  | ack id =>
    have heffect : Effect cfg s (.ack id) _ _ := ack_effect h hc
    rwa [show recordRemoveById s id = (s', out) from Option.some.inj hstep] at heffect
  | expire ref room => exact expire_effect h hc hstep
  | work timer => exact work_effect h hc hstep

/-! #### What it keeps -/

theorem mem_of_split (hsplit : s.records = a ++ r :: b) : r ∈ s.records := by
  rw [hsplit]
  exact mem_append_right a mem_cons_self

theorem mem_of_other {x : Record} (hsplit : s.records = a ++ r :: b) (hx : x ∈ a ++ b) : x ∈ s.records := by
  rw [hsplit]
  exact ((sublist_cons_self r b).append_left a).subset hx

theorem mem_middle {β : Type} {a b : List β} {x y : β} : x ∈ a ++ y :: b ↔ x = y ∨ x ∈ a ++ b := by
  simp only [mem_append, mem_cons]
  tauto

theorem map_middle {β : Type} (f : Record → β) {r' : Record} (h : f r' = f r) :
    (a ++ r' :: b).map f = (a ++ r :: b).map f := by
  rw [map_append, map_cons, h, ← map_cons, ← map_append]

variable {queue : List Nat}

/-- A record is changed at its place, while it moves between its timer and the queue. -/
theorem Sound.move (h : Sound s) {r' : Record} (hsplit : s.records = a ++ r :: b) (href : r'.ref = r.ref)
    (hid : r'.id = r.id) (hdata : r'.data = r.data) (honce : queue.Nodup)
    (hother : ∀ q, q ≠ r.ref → (q ∈ queue ↔ q ∈ s.queue)) (hin : r.ref ∈ queue ↔ r'.started = false) :
    Sound { s with records := a ++ r' :: b, queue := queue } := by
  have hmem := mem_of_split hsplit
  have hne := ne_of_split h.refs hsplit
  refine ⟨?_, ?_, fun x hx => ?_, fun x hx => ?_, honce, fun q hq => ?_, fun x hx => ?_⟩
  · rw [map_middle Record.ref href, ← hsplit]
    exact h.refs
  · rw [map_middle Record.id hid, ← hsplit]
    exact h.ids
  · rcases mem_middle.mp hx with rfl | hx
    · rw [href]
      exact h.below r hmem
    · exact h.below x (mem_of_other hsplit hx)
  · rcases mem_middle.mp hx with rfl | hx
    · rw [hdata]
      exact h.whole r hmem
    · exact h.whole x (mem_of_other hsplit hx)
  · by_cases hqr : q = r.ref
    · exact ⟨r', mem_middle.mpr (.inl rfl), by rw [href, hqr], hin.mp (hqr ▸ hq)⟩
    · obtain ⟨x, hx, rfl, hstopped⟩ := h.queued q ((hother q hqr).mp hq)
      rw [hsplit] at hx
      rcases mem_middle.mp hx with rfl | hx
      · exact absurd rfl hqr
      · exact ⟨x, mem_middle.mpr (.inr hx), rfl, hstopped⟩
  · rcases mem_middle.mp hx with rfl | hx
    · cases hstarted : x.started with
      | true => exact .inl rfl
      | false => exact .inr (href ▸ hin.mpr hstarted)
    · exact (h.driven x (mem_of_other hsplit hx)).imp_right (hother x.ref (hne x hx)).mpr

/-- A record is taken out, here and in the queue. -/
theorem Sound.remove (h : Sound s) (hsplit : s.records = a ++ r :: b) (honce : queue.Nodup) (hout : r.ref ∉ queue)
    (hother : ∀ q, q ≠ r.ref → (q ∈ queue ↔ q ∈ s.queue)) : Sound { s with records := a ++ b, queue := queue } := by
  have hsub : (a ++ b).Sublist s.records := by
    rw [hsplit]
    exact (sublist_cons_self r b).append_left a
  have hne := ne_of_split h.refs hsplit
  refine ⟨h.refs.sublist (hsub.map _), h.ids.sublist (hsub.map _), fun x hx => h.below x (hsub.subset hx),
    fun x hx => h.whole x (hsub.subset hx), honce, fun q hq => ?_, fun x hx => ?_⟩
  · have hqr : q ≠ r.ref := fun heq => hout (heq ▸ hq)
    obtain ⟨x, hx, rfl, hstopped⟩ := h.queued q ((hother q hqr).mp hq)
    rw [hsplit] at hx
    rcases mem_middle.mp hx with rfl | hx
    · exact absurd rfl hqr
    · exact ⟨x, hx, rfl, hstopped⟩
  · exact (h.driven x (hsub.subset hx)).imp_right (hother x.ref (hne x hx)).mpr

theorem Sound.create (h : Sound s) (href : r.ref = s.next) (hid : ∀ x ∈ s.records, x.id ≠ r.id)
    (hdata : r.data.isSome) (hstarted : r.started = true) :
    Sound { s with records := s.records ++ [r], next := s.next + 1 } := by
  refine ⟨?_, ?_, forall_snoc (fun x hx => Nat.lt_succ_of_lt (h.below x hx)) ?_, forall_snoc h.whole hdata, h.once,
    fun q hq => ?_, forall_snoc h.driven (.inl hstarted)⟩
  · rw [map_append]
    refine List.Nodup.append h.refs (nodup_singleton _) fun y hy hyr => ?_
    obtain ⟨x, hx, rfl⟩ := mem_map.mp hy
    have hlt := h.below x hx
    rw [mem_singleton.mp hyr, href] at hlt
    exact Nat.lt_irrefl _ hlt
  · rw [map_append]
    refine List.Nodup.append h.ids (nodup_singleton _) fun y hy hyr => ?_
    obtain ⟨x, hx, rfl⟩ := mem_map.mp hy
    exact hid x hx (mem_singleton.mp hyr)
  · rw [href]
    exact Nat.lt_succ_self s.next
  · obtain ⟨x, hx, href, hstopped⟩ := h.queued q hq
    exact ⟨x, mem_append_left _ hx, href, hstopped⟩

theorem Sound.rest (h : Sound s) {rest : List Nat} (hqueue : s.queue = ref :: rest) :
    rest.Nodup ∧ ref ∉ rest ∧ ∀ q, q ≠ ref → (q ∈ rest ↔ q ∈ s.queue) := by
  have honce := h.once
  rw [hqueue] at honce
  obtain ⟨hnot, hrest⟩ := nodup_cons.mp honce
  refine ⟨hrest, hnot, fun q hq => ?_⟩
  rw [hqueue, mem_cons]
  exact (or_iff_right hq).symm

section
variable (heffect : Effect cfg s e s' out)
include heffect

theorem Effect.sound (h : Sound s) : Sound s' := by
  cases heffect with
  | idle => exact h
  | create hsend hframe hid => exact h.create rfl hid rfl rfl
  | @expire a b r room hevent hsplit hstarted =>
    have hout : r.ref ∉ s.queue := by
      intro hq
      obtain ⟨x, hx, href, hstopped⟩ := h.queued _ hq
      rw [inj_on_of_nodup_map h.refs hx (mem_of_split hsplit) href, hstarted] at hstopped
      cases hstopped
    refine h.move hsplit rfl rfl rfl ?_ (fun q hq => ?_) ?_
    · exact List.Nodup.append h.once (nodup_singleton _) fun q hq hqr => hout (mem_singleton.mp hqr ▸ hq)
    · rw [mem_append, mem_singleton]
      exact or_iff_left hq
    · exact ⟨fun _ => rfl, fun _ => mem_append_right _ (mem_singleton.mpr rfl)⟩
  | @resend a b r rest data timer hevent hsplit hqueue hdata hcount =>
    obtain ⟨hrest, hnot, hother⟩ := h.rest hqueue
    exact h.move hsplit rfl rfl rfl hrest hother ⟨fun hin => absurd hin hnot, fun hstarted => by cases hstarted⟩
  | @giveUp a b r rest data timer hevent hsplit hqueue hdata hcount =>
    obtain ⟨hrest, hnot, hother⟩ := h.rest hqueue
    exact h.remove hsplit hrest hnot hother
  | answer hevent hsplit hqueue => exact h.remove hsplit h.once hqueue fun _ _ => .rfl

theorem Effect.next_le : s.next ≤ s'.next := by
  cases heffect with
  | create => exact Nat.le_succ s.next
  | _ => exact Nat.le_refl s.next

/-- Nothing is done for a record that is not there and not made either, and it does not come in. -/
theorem Effect.silent (hnew : ref < s.next ∨ s'.next ≤ ref) (hgone : ∀ r ∈ s.records, r.ref ≠ ref) :
    (out.actions.filter fun a => a.ref = some ref) = [] ∧ out.found ≠ some ref ∧ ∀ r ∈ s'.records, r.ref ≠ ref := by
  -- the records that stay are told apart, and so is the one that is changed
  have hchanged {a b : List Record} {r r' : Record} (hsplit : s.records = a ++ r :: b) (href : r'.ref = r.ref) :
      ∀ x ∈ a ++ r' :: b, x.ref ≠ ref := by
    intro x hx
    rcases mem_middle.mp hx with rfl | hx
    · rw [href]
      exact hgone r (mem_of_split hsplit)
    · exact hgone x (mem_of_other hsplit hx)
  cases heffect with
  | idle _ hquiet hfound =>
    refine ⟨filter_eq_nil_iff.mpr fun a ha => ?_, by simp [hfound], hgone⟩
    simp [(hquiet a ha).1]
  | create hsend hframe hid =>
    have hne : s.next ≠ ref := hnew.elim Nat.ne_of_gt Nat.ne_of_lt
    exact ⟨by simp [Action.ref, hne], by simp, forall_snoc hgone hne⟩
  | expire hevent hsplit => exact ⟨rfl, by simp, hchanged hsplit rfl⟩
  | resend hevent hsplit =>
    exact ⟨by simp [Action.ref, hgone _ (mem_of_split hsplit)], by simp, hchanged hsplit rfl⟩
  | giveUp hevent hsplit =>
    exact ⟨by simp [Action.ref, hgone _ (mem_of_split hsplit)], by simp, fun x hx => hgone x (mem_of_other hsplit hx)⟩
  | answer hevent hsplit =>
    exact ⟨rfl, by simp [hgone _ (mem_of_split hsplit)], fun x hx => hgone x (mem_of_other hsplit hx)⟩

end

/-- A record of this command, with this count left. -/
structure Record.Of (r : Record) (ref : Nat) (info : Info) (count : UInt8) : Prop where
  ref : r.ref = ref
  data : r.data = some info.data
  info : r.info info.data = info
  count : r.sendCount = count

/-- What a step does for a record. -/
inductive Fate (s' : State) (out : Output) (ref : Nat) (info : Info) (count : UInt8) : Prop
  | stays {r : Record} (hmem : r ∈ s'.records) (hof : r.Of ref info count)
      (hactions : (out.actions.filter fun a => a.ref = some ref) = []) (hfound : out.found ≠ some ref)
  | again {r : Record} (hcount : count ≠ 0) (hmem : r ∈ s'.records) (hof : r.Of ref info (count - 1))
      (hactions : (out.actions.filter fun a => a.ref = some ref) =
        [.notify ref .resend info, .transmit (some ref) info.bytes]) (hfound : out.found ≠ some ref)
  | givenUp (hcount : count = 0) (hgone : ∀ r ∈ s'.records, r.ref ≠ ref)
      (hactions : (out.actions.filter fun a => a.ref = some ref) = [.notify ref .noAck info])
      (hfound : out.found ≠ some ref)
  | answered (hgone : ∀ r ∈ s'.records, r.ref ≠ ref)
      (hactions : (out.actions.filter fun a => a.ref = some ref) = []) (hfound : out.found = some ref)

theorem Effect.fate (heffect : Effect cfg s e s' out) (h : Sound s) {info : Info} {count : UInt8}
    (hmem : r ∈ s.records) (hof : r.Of ref info count) : Fate s' out ref info count := by
  obtain ⟨rfl, hdata, hinfo, rfl⟩ := hof
  -- a record the step is not about stays as it is
  have hother {a b : List Record} {x : Record} (hsplit : s.records = a ++ x :: b) (hne : r ≠ x) :
      r ∈ a ++ b ∧ x.ref ≠ r.ref := by
    rw [hsplit] at hmem
    have hab := (mem_middle.mp hmem).resolve_left hne
    exact ⟨hab, (ne_of_split h.refs hsplit r hab).symm⟩
  cases heffect with
  | idle _ hquiet hfound =>
    refine .stays hmem ⟨rfl, hdata, hinfo, rfl⟩ (filter_eq_nil_iff.mpr fun a ha => ?_) (by simp [hfound])
    simp [(hquiet a ha).1]
  | create hsend hframe hid =>
    have hne : s.next ≠ r.ref := Nat.ne_of_gt (h.below r hmem)
    exact .stays (mem_append_left _ hmem) ⟨rfl, hdata, hinfo, rfl⟩ (by simp [Action.ref, hne]) (by simp)
  | @expire a b x room hevent hsplit hstarted =>
    by_cases hx : r = x
    · subst hx
      exact .stays (mem_middle.mpr (.inl rfl)) ⟨rfl, hdata, hinfo, rfl⟩ rfl (by simp)
    · exact .stays (mem_middle.mpr (.inr (hother hsplit hx).1)) ⟨rfl, hdata, hinfo, rfl⟩ rfl (by simp)
  | @resend a b x rest data timer hevent hsplit hqueue hxdata hcount =>
    by_cases hx : r = x
    · subst hx
      obtain rfl : info.data = data := Option.some.inj (hdata.symm.trans hxdata)
      refine .again hcount (mem_middle.mpr (.inl rfl)) ⟨rfl, hdata, hinfo, rfl⟩ ?_ (by simp)
      rw [hinfo]
      simp [Action.ref]
    · obtain ⟨hab, hne⟩ := hother hsplit hx
      exact .stays (mem_middle.mpr (.inr hab)) ⟨rfl, hdata, hinfo, rfl⟩ (by simp [Action.ref, hne]) (by simp)
  | @giveUp a b x rest data timer hevent hsplit hqueue hxdata hcount =>
    by_cases hx : r = x
    · subst hx
      obtain rfl : info.data = data := Option.some.inj (hdata.symm.trans hxdata)
      refine .givenUp hcount (ne_of_split h.refs hsplit) ?_ (by simp)
      rw [hinfo]
      simp [Action.ref]
    · obtain ⟨hab, hne⟩ := hother hsplit hx
      exact .stays hab ⟨rfl, hdata, hinfo, rfl⟩ (by simp [Action.ref, hne]) (by simp)
  | @answer a b x hevent hsplit hqueue =>
    by_cases hx : r = x
    · subst hx
      exact .answered (ne_of_split h.refs hsplit) rfl rfl
    · obtain ⟨hab, hne⟩ := hother hsplit hx
      exact .stays hab ⟨rfl, hdata, hinfo, rfl⟩ rfl (by simp [hne])

end Effects

/-! ### How far a command has come -/

/-- A command whose record was made with this count, at the end of a trace. -/
inductive Stage (trace : List (Event α × Output)) (s : State) (ref : Nat) (info : Info) (count : Nat) : Prop
  | pending {r : Record} {left : UInt8} {w : Nat} (hmem : r ∈ s.records) (hof : r.Of ref info left)
      (hcount : w + left.toNat = count) (hactions : actionsOf ref trace = sentAgain ref info w)
      (hopen : ∀ x ∈ trace, x.2.found ≠ some ref)
  | givenUp (hgone : ∀ r ∈ s.records, r.ref ≠ ref)
      (hactions : actionsOf ref trace = sentAgain ref info count ++ [.notify ref .noAck info])
      (hopen : ∀ x ∈ trace, x.2.found ≠ some ref)
  | answered (hgone : ∀ r ∈ s.records, r.ref ≠ ref) (hfound : ∃ x ∈ trace, x.2.found = some ref)

section Stage
variable {cfg : Config α} {s s' : State} {trace : List (Event α × Output)} {e : Event α} {out : Output}

theorem Stage.step {ref : Nat} {info : Info} {count : Nat} (h : Stage trace s ref info count)
    (heffect : Effect cfg s e s' out) (hsound : Sound s) (hbelow : ref < s.next) :
    Stage (trace ++ [(e, out)]) s' ref info count := by
  cases h with
  | @pending r left w hmem hof hcount hactions hopen =>
    have hsnoc := actionsOf_snoc ref trace (e, out)
    rw [hactions] at hsnoc
    cases heffect.fate hsound hmem hof with
    | stays hmem' hof' hfilter hfound =>
      rw [hfilter, append_nil] at hsnoc
      exact .pending hmem' hof' hcount hsnoc (forall_snoc hopen hfound)
    | again hleft hmem' hof' hfilter hfound =>
      have hone : (1 : UInt8) ≤ left := by
        exact Nat.one_le_iff_ne_zero.mpr fun hzero => hleft (UInt8.toNat_inj.mp hzero)
      have hsub := UInt8.toNat_sub_of_le left 1 hone
      rw [UInt8.le_iff_toNat_le] at hone
      rw [hfilter, ← sentAgain_succ] at hsnoc
      refine .pending hmem' hof' ?_ hsnoc (forall_snoc hopen hfound)
      rw [hsub]
      simp only [UInt8.toNat_one] at hone ⊢
      omega
    | givenUp hleft hgone hfilter hfound =>
      obtain rfl : w = count := by
        rw [hleft] at hcount
        exact hcount
      rw [hfilter] at hsnoc
      exact .givenUp hgone hsnoc (forall_snoc hopen hfound)
    | answered hgone hfilter hfound => exact .answered hgone ⟨(e, out), by simp, hfound⟩
  | givenUp hgone hactions hopen =>
    obtain ⟨hfilter, hfound, hgone'⟩ := heffect.silent (.inl hbelow) hgone
    refine .givenUp hgone' ?_ (forall_snoc hopen hfound)
    rw [actionsOf_snoc, hfilter, append_nil]
    exact hactions
  | answered hgone hfound =>
    obtain ⟨-, -, hgone'⟩ := heffect.silent (.inl hbelow) hgone
    obtain ⟨x, hx, href⟩ := hfound
    exact .answered hgone' ⟨x, mem_append_left _ hx, href⟩

end Stage

def infoOf (cfg : Config α) (data : Bytes) : Info :=
  ⟨cfg.cmdGet data, cfg.idGet data, data, UInt8.ofNat data.length⟩

/-- Every command sent so far has come somewhere, and an answered one has seen its last action. -/
structure Inv (cfg : Config α) (trace : List (Event α × Output)) (s : State) : Prop extends Sound s where
  fresh : ∀ ref, s.next ≤ ref → actionsOf ref trace = [] ∧ ∀ x ∈ trace, x.2.found ≠ some ref
  told : ∀ before cmd count timeout arg grants out after data,
    trace = before ++ (.send cmd count timeout arg grants, out) :: after → count ≠ 0 → timeout ≠ 0 →
    frame cfg cmd arg = some data → data.length ≠ 0 →
    ∃ ref < s.next, out.actions = [.transmit (some ref) (infoOf cfg data).bytes] ∧
      Stage trace s ref (infoOf cfg data) (UInt8.ofInt count - 1).toNat
  closed : ∀ before e out after ref, trace = before ++ (e, out) :: after → out.found = some ref →
    ref < s.next ∧ (∀ r ∈ s.records, r.ref ≠ ref) ∧ actionsOf ref after = []
  safe : ∀ x ∈ trace, Action.fault ∉ x.2.actions

theorem inv_init (cfg : Config α) : Inv cfg [] {} where
  refs := nodup_nil
  ids := nodup_nil
  below := fun _ h => by cases h
  whole := fun _ h => by cases h
  once := nodup_nil
  queued := fun _ h => by cases h
  driven := fun _ h => by cases h
  fresh := fun _ _ => ⟨rfl, fun _ h => by cases h⟩
  told := fun before _ _ _ _ _ _ _ _ h => absurd h (by simp)
  closed := fun before _ _ _ _ h => absurd h (by simp)
  safe := fun _ h => by cases h

section Inv
variable {cfg : Config α} {s s' : State} {trace : List (Event α × Output)} {e : Event α} {out : Output}

section
variable (heffect : Effect cfg s e s' out)
include heffect

/-- A new command is pending, and was sent once. -/
theorem Effect.sent (h : Inv cfg trace s) {cmd count : Int} {timeout : Nat} {arg : α} {grants : Grants}
    {data : Bytes} (hsend : e = .send cmd count timeout arg grants) (hcount : count ≠ 0) (htimeout : timeout ≠ 0)
    (hframe : frame cfg cmd arg = some data) (hdata : data.length ≠ 0) :
    ∃ ref < s'.next, out.actions = [.transmit (some ref) (infoOf cfg data).bytes] ∧
      Stage (trace ++ [(e, out)]) s' ref (infoOf cfg data) (UInt8.ofInt count - 1).toNat := by
  cases heffect with
  | idle _ _ _ hnone => exact absurd (hnone cmd count timeout arg grants data hsend hcount htimeout hframe) hdata
  | create hsend' hframe' hid =>
    cases hsend.symm.trans hsend'
    obtain rfl := Option.some.inj (hframe.symm.trans hframe')
    obtain ⟨hnothing, hopen⟩ := h.fresh s.next (Nat.le_refl s.next)
    refine ⟨s.next, Nat.lt_succ_self s.next, rfl,
      .pending (w := 0) (mem_append_right _ (mem_singleton.mpr rfl))
        ⟨rfl, rfl, rfl, rfl⟩ (Nat.zero_add _) ?_ (forall_snoc hopen (by simp))⟩
    rw [actionsOf_snoc, hnothing]
    simp [Action.ref, sentAgain, Info.bytes, infoOf]
  | expire hevent => cases hsend.symm.trans hevent
  | resend hevent => cases hsend.symm.trans hevent
  | giveUp hevent => cases hsend.symm.trans hevent
  | answer hevent => cases hsend.symm.trans hevent

theorem Effect.answered (h : Sound s) {ref : Nat} (hfound : out.found = some ref) :
    ref < s'.next ∧ ∀ r ∈ s'.records, r.ref ≠ ref := by
  cases heffect with
  | idle _ _ hnone =>
    rw [hnone] at hfound
    cases hfound
  | answer hevent hsplit hqueue =>
    cases hfound
    exact ⟨h.below _ (mem_of_split hsplit), ne_of_split h.refs hsplit⟩
  | create | expire | resend | giveUp => cases hfound

theorem Effect.safe : Action.fault ∉ out.actions := by
  cases heffect with
  | idle _ hquiet => exact fun hmem => (hquiet _ hmem).2 rfl
  | create | expire | resend | giveUp | answer => simp

end

/-- **What an orderly step keeps.** -/
theorem Inv.step (h : Inv cfg trace s) (hc : Orderly cfg s e) (hstep : (machine cfg).step s e = some (s', out)) :
    Inv cfg (trace ++ [(e, out)]) s' := by
  have heffect := step_effect h.toSound hc hstep
  refine ⟨heffect.sound h.toSound, fun ref href => ?_, ?_, ?_, forall_snoc h.safe heffect.safe⟩
  · have hold : s.next ≤ ref := heffect.next_le.trans href
    obtain ⟨hnothing, hopen⟩ := h.fresh ref hold
    obtain ⟨hfilter, hfound, -⟩ := heffect.silent (.inr href) fun r hr => Nat.ne_of_lt ((h.below r hr).trans_le hold)
    refine ⟨?_, forall_snoc hopen hfound⟩
    rw [actionsOf_snoc, hnothing, hfilter]
    rfl
  · intro before cmd count timeout arg grants out' after data hsplit hcount htimeout hframe hdata
    obtain ⟨-, hlast, -⟩ | ⟨front, rfl, hfront⟩ := split_snoc hsplit
    · obtain ⟨hsend, rfl⟩ := Prod.mk.inj hlast
      exact heffect.sent h hsend.symm hcount htimeout hframe hdata
    · obtain ⟨ref, hbelow, hactions, hstage⟩ :=
        h.told before cmd count timeout arg grants out' front data hfront hcount htimeout hframe hdata
      exact ⟨ref, hbelow.trans_le heffect.next_le, hactions, hstage.step heffect h.toSound hbelow⟩
  · intro before e' out' after ref hsplit hfound
    obtain ⟨-, hlast, rfl⟩ | ⟨front, rfl, hfront⟩ := split_snoc hsplit
    · obtain ⟨-, rfl⟩ := Prod.mk.inj hlast
      obtain ⟨hbelow, hgone⟩ := heffect.answered h.toSound hfound
      exact ⟨hbelow, hgone, rfl⟩
    · obtain ⟨hbelow, hgone, hnothing⟩ := h.closed before e' out' front ref hfront hfound
      obtain ⟨hfilter, -, hgone'⟩ := heffect.silent (.inl hbelow) hgone
      refine ⟨hbelow.trans_le heffect.next_le, hgone', ?_⟩
      rw [actionsOf_snoc, hnothing, hfilter]
      rfl

end Inv

/-! ### Timeouts alone -/

/-- Events that meet no answer, and what they lead to. -/
structure Drives (cfg : Config α) (s : State) (more : List (Event α)) (s' : State) (trace : List (Event α × Output)) :
    Prop where
  orderly : (machine cfg).Meets (Orderly cfg) s more
  run : (machine cfg).run s more = some (s', trace)
  quiet : ∀ x ∈ trace, x.2.found = none

section Drives
variable {cfg : Config α} {s s' : State} {trace : List (Event α × Output)} {r : Record} {ref : Nat} {info : Info}
  {left : UInt8}

theorem Drives.nil (cfg : Config α) (s : State) : Drives cfg s [] s [] := ⟨trivial, rfl, fun _ h => by cases h⟩

variable {more : List (Event α)} {behind : List (Event α × Output)} {rest : List Nat}

theorem Drives.cons {e : Event α} {out : Output} {t : State} (h : Drives cfg s' more t behind)
    (hstep : (machine cfg).step s e = some (s', out)) (hc : Orderly cfg s e) (hquiet : out.found = none) :
    Drives cfg s (e :: more) t ((e, out) :: behind) := by
  exact ⟨(machine cfg).meets_cons hc hstep h.orderly,
    (machine cfg).run_cons_eq_some.mpr ⟨s', out, behind, hstep, h.run, rfl⟩,
    forall_mem_cons.mpr ⟨hquiet, h.quiet⟩⟩

theorem Inv.drives (h : Inv cfg trace s) (hd : Drives cfg s more s' behind) : Inv cfg (trace ++ behind) s' :=
  (machine cfg).run_invariant_from
    (fun past s e _ _ (hs : Inv cfg past s) (hc : Orderly cfg s e) hstep => hs.step hc hstep)
    trace s s' more behind h hd.orderly hd.run

def Turned (s' : State) (ref : Nat) (info : Info) (left : UInt8) : Prop :=
  (left ≠ 0 ∧ ∃ r ∈ s'.records, r.Of ref info (left - 1)) ∨ (left = 0 ∧ ∀ r ∈ s'.records, r.ref ≠ ref)

theorem Fate.turned {out : Output} (h : Fate s' out ref info left) (hquiet : out.found = none) :
    (∃ r ∈ s'.records, r.Of ref info left ∧ (out.actions.filter fun a => a.ref = some ref) = []) ∨
      Turned s' ref info left := by
  cases h with
  | stays hmem hof hactions => exact .inl ⟨_, hmem, hof, hactions⟩
  | again hleft hmem hof => exact .inr (.inl ⟨hleft, _, hmem, hof⟩)
  | givenUp hleft hgone => exact .inr (.inr ⟨hleft, hgone⟩)
  | answered _ _ hfound => cases hquiet.symm.trans hfound

/-- The worker takes the head of its queue, whatever that is. -/
theorem Inv.work (h : Inv cfg trace s) {q : Nat} (hqueue : s.queue = q :: rest) :
    ∃ s' out, (machine cfg).step s (.work true) = some (s', out) ∧ Effect cfg s (.work true) s' out ∧
      s'.queue = rest ∧ out.found = none ∧ (out.actions.filter fun a => a.ref = some q) ≠ [] := by
  obtain ⟨⟨s', out⟩, hstep⟩ : ∃ x, (machine cfg).step s (.work true) = some x := by
    simp only [machine, Sender.step, hqueue]
    split
    · exact ⟨_, rfl⟩
    · exact ⟨_, rfl⟩
  have heffect : Effect cfg s (.work true) s' out := work_effect h.toSound rfl hstep
  refine ⟨s', out, hstep, heffect, ?_⟩
  cases heffect with
  | idle houter => cases houter
  | resend hevent hsplit hhead =>
    obtain ⟨rfl, rfl⟩ := List.cons.inj (hqueue.symm.trans hhead)
    exact ⟨rfl, rfl, by simp [Action.ref]⟩
  | giveUp hevent hsplit hhead =>
    obtain ⟨rfl, rfl⟩ := List.cons.inj (hqueue.symm.trans hhead)
    exact ⟨rfl, rfl, by simp [Action.ref]⟩
  | create hevent | expire hevent | answer hevent => cases hevent

section
variable (h : Inv cfg trace s) (hmem : r ∈ s.records) (hof : r.Of ref info left)
include h hmem hof

/-- The worker comes to a record in its queue. -/
theorem Inv.turn {front : List Nat} (hqueue : s.queue = front ++ ref :: rest) :
    ∃ more t behind, Drives cfg s more t behind ∧ Turned t ref info left := by
  -- by induction on what is in front of it in the queue
  induction front generalizing s trace r with
  | nil =>
    obtain ⟨s', out, hstep, heffect, -, hquiet, hacts⟩ := h.work hqueue
    refine ⟨_, s', _, (Drives.nil cfg s').cons hstep rfl hquiet, ?_⟩
    obtain ⟨-, -, -, hnone⟩ | hturned := (heffect.fate h.toSound hmem hof).turned hquiet
    · exact absurd hnone hacts
    · exact hturned
  | cons q front ih =>
    obtain ⟨s', out, hstep, heffect, hrest, hquiet, -⟩ := h.work hqueue
    have hnext : Inv cfg (trace ++ [(.work true, out)]) s' := h.step rfl hstep
    obtain ⟨r', hmem', hof', -⟩ | hturned := (heffect.fate h.toSound hmem hof).turned hquiet
    · obtain ⟨more, t, behind, hdrives, hturned⟩ := ih hnext hmem' hof' hrest
      exact ⟨_, t, _, hdrives.cons hstep rfl hquiet, hturned⟩
    · exact ⟨_, s', _, (Drives.nil cfg s').cons hstep rfl hquiet, hturned⟩

/-- Its timer runs out first, if it still runs. -/
theorem Inv.timeout : ∃ more t behind, Drives cfg s more t behind ∧ Turned t ref info left := by
  rcases h.driven r hmem with hstarted | hqueued
  · have hexists : ∃ x ∈ s.records, x.ref = ref ∧ x.started = true := ⟨r, hmem, hof.ref, hstarted⟩
    obtain ⟨⟨s', out⟩, hstep⟩ : ∃ x, (machine cfg).step s (.expire ref true) = some x := by
      simp only [machine, Sender.step, if_pos hexists]
      exact ⟨_, rfl⟩
    have hnext : Inv cfg (trace ++ [(.expire ref true, out)]) s' := h.step rfl hstep
    have heffect : Effect cfg s (.expire ref true) s' out := expire_effect h.toSound rfl hstep
    have hfate := heffect.fate h.toSound hmem hof
    cases heffect with
    | expire hevent hsplit =>
      cases hevent
      obtain ⟨r', hmem', hof', -⟩ | hturned := hfate.turned rfl
      · obtain ⟨more, t, behind, hdrives, hturned⟩ := hnext.turn hmem' hof' rfl
        exact ⟨_, t, _, hdrives.cons hstep rfl rfl, hturned⟩
      · exact ⟨_, _, _, (Drives.nil cfg _).cons hstep rfl rfl, hturned⟩
    | idle houter => cases houter
    | create hevent | resend hevent | giveUp hevent | answer hevent => cases hevent
  · obtain ⟨front, rest, hqueue⟩ := append_of_mem hqueued
    rw [hof.ref] at hqueue
    exact h.turn hmem hof hqueue
end

theorem Drives.append {t : State} {more' : List (Event α)} {behind' : List (Event α × Output)}
    (h : Drives cfg s more s' behind) (h' : Drives cfg s' more' t behind') :
    Drives cfg s (more ++ more') t (behind ++ behind') := by
  induction more generalizing s behind with
  | nil =>
    cases h.run
    exact h'
  | cons e more ih =>
    obtain ⟨s1, out, behind1, hstep, hrun, rfl⟩ := (machine cfg).run_cons_eq_some.mp h.run
    have hrest : Drives cfg s1 more s' behind1 :=
      ⟨h.orderly.2 s1 out hstep, hrun, fun x hx => h.quiet x (mem_cons_of_mem _ hx)⟩
    exact (ih hrest).cons hstep h.orderly.1 (h.quiet (e, out) mem_cons_self)

/-- Timeouts alone bring a pending command to its end. -/
theorem Inv.finish (h : Inv cfg trace s) (hmem : r ∈ s.records) (hof : r.Of ref info left) :
    ∃ more t behind, Drives cfg s more t behind ∧ ∀ x ∈ t.records, x.ref ≠ ref := by
  -- by induction on the count that is left
  induction hleft : left.toNat generalizing s trace r left with
  | zero =>
    obtain ⟨more, t, behind, hdrives, ⟨hne, -⟩ | ⟨-, hgone⟩⟩ := h.timeout hmem hof
    · exact absurd (UInt8.toNat_inj.mp hleft) hne
    · exact ⟨more, t, behind, hdrives, hgone⟩
  | succ n ih =>
    obtain ⟨more, t, behind, hdrives, ⟨-, r', hmem', hof'⟩ | ⟨hzero, -⟩⟩ := h.timeout hmem hof
    · have hless : (left - 1).toNat = n := by
        rw [UInt8.toNat_sub_of_le left 1 (by rw [UInt8.le_iff_toNat_le, hleft]; exact Nat.le_add_left 1 n), hleft]
        rfl
      obtain ⟨more', u, behind', hdrives', hgone⟩ := ih (h.drives hdrives) hmem' hof' hless
      exact ⟨_, u, _, hdrives.append hdrives', hgone⟩
    · rw [hzero] at hleft
      cases hleft

end Drives

/-! ### Runs -/

theorem count_left {n : Int} (h : 1 ≤ n) (h' : n ≤ 256) : (UInt8.ofInt n - 1).toNat = n.toNat - 1 := by
  rw [UInt8.toNat_sub]
  simp only [UInt8.ofInt, UInt8.toNat_ofNat', UInt8.toNat_one]
  omega

theorem bytes_infoOf (cfg : Config α) {data : Bytes} (h : data.length ≤ 255) : (infoOf cfg data).bytes = data := by
  have hlen : (UInt8.ofNat data.length).toNat = data.length := by
    rw [UInt8.toNat_ofNat']
    omega
  rw [Info.bytes, infoOf, hlen, take_length]

/-- What was done for a command that was never answered: it is pending, with a timer that runs or a
place in the queue, or it was sent `n` times and given up, in this order. -/
def Unanswered (trace : List (Event α × Output)) (s : State) (ref : Nat) (info : Info) (n : Nat) : Prop :=
  (∃ w < n, actionsOf ref trace = sentAgain ref info w ∧
    ∃ r ∈ s.records, r.ref = ref ∧ (r.started = true ∨ ref ∈ s.queue)) ∨
  (actionsOf ref trace = sentAgain ref info (n - 1) ++ [.notify ref .noAck info] ∧ ∀ r ∈ s.records, r.ref ≠ ref)

theorem Stage.unanswered {trace : List (Event α × Output)} {s : State} {ref count n : Nat} {info : Info}
    (h : Stage trace s ref info count) (hsound : Sound s) (hn : count + 1 = n)
    (hopen : ∀ x ∈ trace, x.2.found ≠ some ref) : Unanswered trace s ref info n := by
  subst hn
  cases h with
  | @pending r left w hmem hof hcount hactions =>
    refine .inl ⟨w, by omega, hactions, r, hmem, hof.ref, ?_⟩
    rw [← hof.ref]
    exact hsound.driven r hmem
  | givenUp hgone hactions => exact .inr ⟨hactions, hgone⟩
  | answered hgone hfound =>
    obtain ⟨x, hx, href⟩ := hfound
    exact absurd href (hopen x hx)

/-- **Sent n times, then given up, unless it is answered.** In every orderly run: a command sent with
a count of 1 to 256 and a frame of 1 to 255 bytes is sent at once with all its bytes. If it is never
answered, what is done for it is a first part of `n` transmissions and one notice that there was no
answer, or all of it; and timeouts alone bring it to its end. An answer takes out the record
it is for and no other, and nothing is done for that command behind it. No memory is used that
was freed. -/
theorem sent_until_answered (cfg : Config α) {events : List (Event α)} {t : State} {trace : List (Event α × Output)}
    (hc : (machine cfg).Meets (Orderly cfg) {} events) (hr : (machine cfg).run {} events = some (t, trace)) :
    (∀ before cmd n timeout arg grants out after data,
      trace = before ++ (.send cmd n timeout arg grants, out) :: after → timeout ≠ 0 → frame cfg cmd arg = some data →
      data.length ≠ 0 → data.length ≤ 255 → 1 ≤ n → n ≤ 256 →
      ∃ ref, out.actions = [.transmit (some ref) data] ∧ (infoOf cfg data).bytes = data ∧
        ((∀ x ∈ trace, x.2.found ≠ some ref) →
          Unanswered trace t ref (infoOf cfg data) n.toNat ∧
          ∃ more u behind, Drives cfg t more u behind ∧ actionsOf ref (trace ++ behind) =
            sentAgain ref (infoOf cfg data) (n.toNat - 1) ++ [.notify ref .noAck (infoOf cfg data)])) ∧
    (∀ before id out after ref, trace = before ++ (.ack id, out) :: after → out.found = some ref →
      actionsOf ref after = []) ∧
    (∀ r ∈ t.records, ∃ a b, t.records = a ++ r :: b ∧
      recordRemoveById t r.id = ({ t with records := a ++ b }, { found := some r.ref })) ∧
    ∀ x ∈ trace, Action.fault ∉ x.2.actions := by
  have hinv : Inv cfg trace t := (machine cfg).run_invariant (Orderly cfg) (Inv cfg)
    (fun _ _ _ _ _ h hc hstep => h.step hc hstep) (inv_init cfg) hc hr
  refine ⟨?_, fun before id out after ref hsplit hfound => (hinv.closed before _ out after ref hsplit hfound).2.2,
    fun r hmem => ?_, hinv.safe⟩
  · intro before cmd n timeout arg grants out after data hsplit htimeout hframe hdata hlen hone hmax
    have hcount : n ≠ 0 := by omega
    have hleft := count_left hone hmax
    obtain ⟨ref, -, hactions, hstage⟩ :=
      hinv.told before cmd n timeout arg grants out after data hsplit hcount htimeout hframe hdata
    rw [bytes_infoOf cfg hlen] at hactions
    refine ⟨ref, hactions, bytes_infoOf cfg hlen, fun hopen => ⟨hstage.unanswered hinv.toSound (by omega) hopen, ?_⟩⟩
    cases hstage with
    | @pending r left w hmem hof =>
      obtain ⟨more, u, behind, hdrives, hgone⟩ := hinv.finish hmem hof
      have hinv' := hinv.drives hdrives
      have hsplit' : trace ++ behind = before ++ (.send cmd n timeout arg grants, out) :: (after ++ behind) := by
        rw [hsplit, append_assoc]
        rfl
      obtain ⟨ref', -, hactions', hstage'⟩ :=
        hinv'.told before cmd n timeout arg grants out _ data hsplit' hcount htimeout hframe hdata
      obtain rfl : ref' = ref := by
        rw [bytes_infoOf cfg hlen, hactions] at hactions'
        simpa using hactions'.symm
      have hopen' : ∀ x ∈ trace ++ behind, x.2.found ≠ some ref' :=
        forall_mem_append.mpr ⟨hopen, fun x hx => by simp [hdrives.quiet x hx]⟩
      refine ⟨more, u, behind, hdrives, ?_⟩
      rcases hstage'.unanswered hinv'.toSound (by omega : _ + 1 = n.toNat) hopen' with
        ⟨-, -, -, x, hx, href, -⟩ | ⟨hdone, -⟩
      · exact absurd href (hgone x hx)
      · exact hdone
    | givenUp hgone hdone =>
      refine ⟨[], t, [], Drives.nil cfg t, ?_⟩
      rw [append_nil, hdone, hleft]
    | answered hgone hfound =>
      obtain ⟨x, hx, href⟩ := hfound
      exact absurd href (hopen x hx)
  · obtain ⟨a, b, hsplit⟩ := append_of_mem hmem
    exact ⟨a, b, hsplit, recordRemoveById_split hsplit hinv.ids (hinv.whole r hmem)⟩

def oneCommand : Config Bytes where
  cmds := [⟨1, .down, some⟩]
  cmdGet := fun _ => 1
  idGet := fun data => (data.headD 0).toNat

def oneAnswered : List (Event Bytes) :=
  [.send 1 2 10 [7, 1] {}, .send 1 1 10 [8] {}, .expire 0 true, .work true, .ack 8, .expire 0 true, .work true]

theorem sent_until_answered_one : ∃ t trace, (machine oneCommand).run {} oneAnswered = some (t, trace) ∧
    actionsOf 0 trace = sentAgain 0 (infoOf oneCommand [7, 1]) 1 ++ [.notify 0 .noAck (infoOf oneCommand [7, 1])] ∧
    (∀ before id out after ref, trace = before ++ (.ack id, out) :: after → out.found = some ref →
      actionsOf ref after = []) ∧
    ∀ x ∈ trace, Action.fault ∉ x.2.actions := by
  have hview : ((machine oneCommand).run {} oneAnswered).map (fun r => actionsOf 0 r.2) =
      some (sentAgain 0 (infoOf oneCommand [7, 1]) 1 ++ [.notify 0 .noAck (infoOf oneCommand [7, 1])]) := by
    decide
  obtain ⟨⟨t, trace⟩, hr, hactions⟩ := Option.map_eq_some_iff.mp hview
  obtain ⟨-, hclosed, -, hsafe⟩ := sent_until_answered oneCommand (by decide) hr
  exact ⟨t, trace, hr, hactions, hclosed, hsafe⟩

/-- **What is kept in narrow fields is cut, and records are mixed up by their id.** A command with the
count 257 is sent once and given up; of a frame of 256 bytes nothing is sent; of two pending
commands with one id, the first is dropped when the second is given up, one transmission short and
without a notice; and a record that is answered while its timeout is in the queue is used
behind that, although it is freed. -/
theorem count_frame_id_and_queue :
    (((machine oneCommand).run {} [.send 1 257 10 [7] {}, .expire 0 true, .work true]).map fun r => actionsOf 0 r.2) =
      some [.transmit (some 0) [7], .notify 0 .noAck (infoOf oneCommand [7])] ∧
    (((machine oneCommand).run {} [.send 1 1 10 (List.replicate 256 7) {}]).map fun r => actionsOf 0 r.2) =
      some [.transmit (some 0) []] ∧
    (((machine oneCommand).run {} [.send 1 2 10 [7, 1] {}, .send 1 1 10 [7, 2] {}, .expire 1 true, .work true]).map
        fun r => (actionsOf 0 r.2, r.1.records.map Record.ref, r.2.map fun x => x.2.found)) =
      some ([.transmit (some 0) [7, 1]], [1], [none, none, none, none]) ∧
    (((machine oneCommand).run {} [.send 1 2 10 [7] {}, .expire 0 true, .ack 7, .work true]).map
        fun r => r.2.map fun x => x.2.actions) =
      some [[.transmit (some 0) [7]], [], [], [.fault]] := by
  decide +kernel

end Qumios.Comm.Sender
