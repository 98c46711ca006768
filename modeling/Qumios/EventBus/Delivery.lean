import Qumios.EventBus.Bus

/-! Every event is delivered once, in order.

What is posted is what has been delivered and, behind it, what is still queued
(`Served`); posting keeps that up at the end of the queue and processing at its front.
While a handler runs its event stands at the front, so it sees the bytes of that event
and no others.

A call goes through the same queue: it posts its event at the end, and shows and drops
the one in front. These are the same event only if the queue was empty. -/
namespace Qumios.EventBus
open Run List Function

/-! ### What happens -/

def Obs.posted? (c : Class) : Obs → Option Bytes
  | .posted cls data => if cls = c then some data else none
  | _ => none

def Obs.delivered? (c : Class) : Obs → Option Showing
  | .delivered s => if s.ev.cls = c then some s else none
  | _ => none

def Obs.called? : Obs → Option Showing
  | .called s => some s
  | _ => none

def postedIn (c : Class) (obs : List Obs) : List Bytes := obs.filterMap (Obs.posted? c)

def deliveredIn (c : Class) (obs : List Obs) : List Showing := obs.filterMap (Obs.delivered? c)

def calledIn (obs : List Obs) : List Showing := obs.filterMap Obs.called?

/-- A call of a handler shows the bytes: the first two as the event, and as many of them as
are asked for whenever it looks. -/
structure Shows (s : Showing) (want : Nat × Bytes) : Prop where
  handler : s.handler = want.1
  event : [s.ev.moduleId, s.ev.eventId] = want.2.take 2
  peeks : ∀ n seen, (n, seen) ∈ s.peeks → 0 < n → seen = some (want.2.take n)

def calls (entries : List (Event × Nat)) (ev : Event) (data : Bytes) : List (Nat × Bytes) :=
  (entries.filter fun entry => entry.1.handles ev).map fun entry => (entry.2, data)

def showings (entries : List (Event × Nat)) : Bytes → List (Nat × Bytes)
  | moduleId :: eventId :: payload => calls entries ⟨moduleId, eventId⟩ (moduleId :: eventId :: payload)
  | _ => []

/-- With the queues `q` at the start and `q'` at the end: the events posted join the queue,
and those that leave it have been delivered, in order, to every handler they are for. -/
structure Served (entries : List (Event × Nat)) (obs : List Obs) (q done q' : Class → List Bytes) : Prop where
  queue : ∀ c, q c ++ postedIn c obs = done c ++ q' c
  shown : ∀ c, List.Forall₂ Shows (deliveredIn c obs) ((done c).flatMap (showings entries))

theorem Served.append {entries : List (Event × Nat)} {obs obs' : List Obs} {q q' q'' done done' : Class → List Bytes}
    (h : Served entries obs q done q') (h' : Served entries obs' q' done' q'') :
    Served entries (obs ++ obs') q (fun c => done c ++ done' c) q'' where
  queue c := by
    rw [postedIn, filterMap_append, ← append_assoc]
    show q c ++ postedIn c obs ++ postedIn c obs' = _
    rw [h.queue, append_assoc, h'.queue, append_assoc]
  shown c := by
    rw [deliveredIn, filterMap_append, flatMap_append]
    exact rel_append (h.shown c) (h'.shown c)

/-! ### Queues -/

def Whole (c : Class) (data : Bytes) : Prop := ∃ ev payload, data = Event.moduleId ev :: ev.eventId :: payload ∧ ev.cls = c

/-- The queues hold `q`; every event in them is whole. -/
structure Bus.Holds (bus : Bus) (q : Class → List Bytes) : Prop where
  queues : ∀ c, Queues (bus.queue c) (q c)
  whole : ∀ c, ∀ data ∈ q c, Whole c data

def Msg.Plain (m : Msg) : Prop := 2 ≤ m.size ∧ m.size ≤ 255

instance : DecidablePred Msg.Plain := fun _ => inferInstanceAs (Decidable (_ ∧ _))

def Action.Plain : Action → Prop
  | .peek _ => True
  | .post m => m.Plain

instance : DecidablePred Action.Plain
  | .peek _ => isTrue trivial
  | .post m => inferInstanceAs (Decidable m.Plain)

section Queues
variable {bus bus' : Bus} {q : Class → List Bytes} {c : Class}

@[simp] theorem queue_setQueue_self (bus : Bus) (cb : Circbuf) (c : Class) : (bus.setQueue cb c).queue c = cb := by
  cases c <;> rfl

theorem queue_setQueue_ne (bus : Bus) (cb : Circbuf) {d : Class} (h : d ≠ c) :
    (bus.setQueue cb c).queue d = bus.queue d := by
  cases c <;> cases d <;> first | rfl | exact absurd rfl h

@[simp] theorem table_setQueue (bus : Bus) (cb : Circbuf) (c : Class) : (bus.setQueue cb c).table = bus.table := by
  cases c <;> rfl

/-- One queue changes. -/
theorem Bus.Holds.setQueue {cb : Circbuf} {elems : List Bytes} (h : bus.Holds q) (hcb : Queues cb elems)
    (hwhole : ∀ data ∈ elems, Whole c data) : (bus.setQueue cb c).Holds (Function.update q c elems) where
  queues d := by
    by_cases hd : d = c
    · subst hd
      rwa [queue_setQueue_self, update_self]
    · rw [queue_setQueue_ne bus cb hd, update_of_ne hd]
      exact h.queues d
  whole d data hdata := by
    by_cases hd : d = c
    · subst hd
      rw [update_self] at hdata
      exact hwhole data hdata
    · rw [update_of_ne hd] at hdata
      exact h.whole d data hdata

theorem Msg.Plain.bytes {m : Msg} (h : m.Plain) :
    m.bytes = m.ev.moduleId :: m.ev.eventId :: m.behind.take (m.size - 2) := by
  obtain ⟨n, hn⟩ := Nat.exists_eq_add_of_le' h.1
  rw [Msg.bytes, hn]
  rfl

/-- A post that succeeds puts the bytes at the end of their queue. -/
theorem Bus.Holds.post {m : Msg} (h : bus.Holds q) (hm : m.Plain) (hp : bus.post m = some bus') :
    bus'.Holds (Function.update q m.ev.cls (q m.ev.cls ++ [m.bytes])) ∧ bus'.table = bus.table := by
  have hsize : (UInt8.ofNat m.size).toNat = m.size := by
    exact Nat.mod_eq_of_lt (Nat.lt_succ_of_le hm.2)
  rw [Bus.post] at hp
  split at hp
  · cases hp
  · split at hp
    · split at hp
      · cases hp
      · rename_i cb hpush
        cases hp
        have hqueue := (h.queues m.ev.cls).pushElem (by rw [hsize]; exact m.inside) hpush
        rw [hsize] at hqueue
        exact ⟨h.setQueue hqueue (forall_snoc (h.whole _) ⟨m.ev, _, hm.bytes, rfl⟩), table_setQueue ..⟩
    · cases hp

end Queues

/-! ### Handlers -/

section Handlers
variable {bus : Bus} {q : Class → List Bytes} {ev : Event} {data : Bytes}

theorem postedIn_cons (c cls : Class) (data : Bytes) (obs : List Obs) :
    postedIn c (.posted cls data :: obs) = if cls = c then data :: postedIn c obs else postedIn c obs := by
  by_cases h : cls = c <;> simp [postedIn, Obs.posted?, h]

theorem posted_then (q : Class → List Bytes) (cls : Class) (data : Bytes) (obs : List Obs) :
    (fun c => Function.update q cls (q cls ++ [data]) c ++ postedIn c obs) =
      fun c => q c ++ postedIn c (.posted cls data :: obs) := by
  funext c
  rw [postedIn_cons]
  by_cases h : cls = c
  · subst h
    rw [update_self, if_pos rfl, append_assoc]
    rfl
  · rw [update_of_ne (Ne.symm h), if_neg h]

def Visible (q : Class → List Bytes) (ev : Event) (data : Bytes) (script : Script) : Prop :=
  (∃ rest, q ev.cls = data :: rest) ∨ ∀ action ∈ script, action.isPost = true

/-- What a handler has done. -/
structure Acted (bus : Bus) (q : Class → List Bytes) (data : Bytes) (script : Script)
    (res : Bus × List (Nat × Option Bytes) × List Obs) : Prop where
  table : res.1.table = bus.table
  holds : res.1.Holds fun c => q c ++ postedIn c res.2.2
  posts : ∀ o ∈ res.2.2, ∃ cls data, o = .posted cls data
  few : res.2.2.length ≤ script.countP Action.isPost
  sees : ∀ n seen, (n, seen) ∈ res.2.1 → 0 < n → seen = some (data.take n)

theorem act_spec {script : Script} (h : bus.Holds q) (hplain : ∀ action ∈ script, action.Plain)
    (hv : Visible q ev data script) : Acted bus q data script (act ev script bus) := by
  induction script generalizing bus q with
  | nil =>
    refine ⟨rfl, ?_, fun o ho => absurd ho not_mem_nil, Nat.le_refl _, fun _ _ hn => absurd hn not_mem_nil⟩
    simpa only [act, postedIn, filterMap_nil, append_nil] using h
  | cons action rest ih =>
    have hrest : ∀ action ∈ rest, action.Plain := fun a ha => hplain a (mem_cons_of_mem _ ha)
    have hv' : Visible q ev data rest := hv.imp_right fun hall a ha => hall a (mem_cons_of_mem _ ha)
    cases action with
    | peek size =>
      have hacted := ih h hrest hv'
      refine ⟨hacted.table, hacted.holds, hacted.posts, hacted.few, fun n seen hn hpos => ?_⟩
      rcases mem_cons.mp hn with heq | hn
      · obtain ⟨rfl, rfl⟩ := Prod.mk.inj heq
        rcases hv with ⟨others, hq⟩ | hall
        · rw [Bus.peek, if_neg (Nat.ne_of_gt hpos)]
          exact (hq ▸ h.queues ev.cls).pop n
        · cases hall _ (mem_cons_self ..)
      · exact hacted.sees n seen hn hpos
    | post m =>
      have hcount : (Action.post m :: rest).countP Action.isPost = rest.countP Action.isPost + 1 :=
        countP_cons_of_pos rfl
      rw [act]
      cases hp : bus.post m with
      | none =>
        have hacted := ih h hrest hv'
        exact ⟨hacted.table, hacted.holds, hacted.posts, hcount ▸ Nat.le_succ_of_le hacted.few, hacted.sees⟩
      | some bus' =>
        obtain ⟨hpost, htable⟩ := h.post (hplain _ (mem_cons_self ..)) hp
        -- What is posted goes behind the event that stands in front.
        have hv'' : Visible (Function.update q m.ev.cls (q m.ev.cls ++ [m.bytes])) ev data rest := by
          refine hv'.imp_left fun ⟨others, hq⟩ => ?_
          by_cases hc : ev.cls = m.ev.cls
          · rw [hc] at hq ⊢
            rw [update_self, hq]
            exact ⟨others ++ [m.bytes], rfl⟩
          · rw [update_of_ne hc]
            exact ⟨others, hq⟩
        have hacted := ih hpost hrest hv''
        have hholds := hacted.holds
        rw [posted_then] at hholds
        exact ⟨hacted.table.trans htable, hholds, forall_mem_cons.mpr ⟨⟨_, _, rfl⟩, hacted.posts⟩,
          hcount ▸ Nat.succ_le_succ hacted.few, hacted.sees⟩

/-- What the loop over the table has done. -/
structure Dispatched (bus : Bus) (q : Class → List Bytes) (entries : List (Event × Nat)) (way : Showing → Obs) (ev : Event)
    (data : Bytes) (scripts : List Script) (res : Bus × List Obs × List Script) : Prop where
  table : res.1.table = bus.table
  holds : res.1.Holds fun c => q c ++ postedIn c res.2.1
  shown : ∀ pick : Obs → Option Showing, (∀ s : Showing, s.ev = ev → pick (way s) = some s) →
    (∀ c data, pick (.posted c data) = none) → List.Forall₂ Shows (res.2.1.filterMap pick) (calls entries ev data)
  only : ∀ o ∈ res.2.1, (∃ c data, o = .posted c data) ∨ ∃ s : Showing, s.ev = ev ∧ o = way s
  left : ∀ action ∈ res.2.2.flatten, action ∈ scripts.flatten
  few : ∀ c, (postedIn c res.2.1).length + toPost res.2.2 ≤ toPost scripts

variable {rest entries : List (Event × Nat)} {way : Showing → Obs} {scripts : List Script}

theorem calls_cons_of_pos {entry : Event} {i : Nat} (h : entry.handles ev = true) :
    calls ((entry, i) :: rest) ev data = (i, data) :: calls rest ev data := by
  simp [calls, h]

theorem calls_cons_of_neg {entry : Event} {i : Nat} (h : ¬ entry.handles ev = true) :
    calls ((entry, i) :: rest) ev data = calls rest ev data := by
  simp [calls, h]

theorem posted?_way (hway : ∀ s c data, way s ≠ .posted c data) (c : Class) (s : Showing) :
    (way s).posted? c = none := by
  cases hs : way s with
  | posted cls data => exact absurd hs (hway s cls data)
  | delivered => rfl
  | called => rfl

theorem toPost_cons (script : Script) (scripts : List Script) :
    toPost (script :: scripts) = script.countP Action.isPost + toPost scripts := by
  rw [toPost, flatten_cons, countP_append]
  rfl

theorem scripts_eq (scripts : List Script) :
    scripts.flatten = scripts.headD [] ++ scripts.tail.flatten ∧
      toPost scripts = (scripts.headD []).countP Action.isPost + toPost scripts.tail := by
  cases scripts with
  | nil => exact ⟨rfl, rfl⟩
  | cons script rest => exact ⟨rfl, toPost_cons script rest⟩

theorem dispatch_spec (h : bus.Holds q) (hway : ∀ s c data, way s ≠ .posted c data)
    (hplain : ∀ action ∈ scripts.flatten, action.Plain) (hev : [ev.moduleId, ev.eventId] = data.take 2)
    (hv : Visible q ev data scripts.flatten) :
    Dispatched bus q entries way ev data scripts (dispatch way ev entries scripts bus) := by
  induction entries generalizing bus q scripts with
  | nil =>
    refine ⟨rfl, ?_, fun _ _ _ => .nil, fun o ho => absurd ho not_mem_nil, fun _ ha => ha, fun c => ?_⟩
    · simpa only [dispatch, postedIn, filterMap_nil, append_nil] using h
    · simp [dispatch, postedIn]
  | cons entry rest ih =>
    obtain ⟨entry, i⟩ := entry
    rw [dispatch]
    by_cases hh : entry.handles ev = true
    · rw [if_pos hh]
      obtain ⟨hscripts, hposts⟩ := scripts_eq scripts
      rw [hscripts] at hplain hv
      have hacted := act_spec h (fun a ha => hplain a (mem_append_left _ ha))
        (hv.imp_right fun hall a ha => hall a (mem_append_left _ ha))
      have hv' : Visible (fun c => q c ++ postedIn c (act ev (scripts.headD []) bus).2.2) ev data scripts.tail.flatten := by
        refine hv.imp (fun ⟨others, hq⟩ => ?_) fun hall a ha => hall a (mem_append_right _ ha)
        exact ⟨others ++ _, by dsimp only; rw [hq]; rfl⟩
      have hrest := ih hacted.holds (fun a ha => hplain a (mem_append_right _ ha)) hv'
      generalize act ev (scripts.headD []) bus = first at hacted hrest ⊢
      obtain ⟨bus', peeks, posts⟩ := first
      dsimp only at hacted hrest ⊢
      generalize dispatch way ev rest scripts.tail bus' = others at hrest ⊢
      obtain ⟨bus'', obs, scripts'⟩ := others
      have hposted : ∀ c, postedIn c (way ⟨i, ev, peeks⟩ :: (posts ++ obs)) = postedIn c posts ++ postedIn c obs := by
        intro c
        rw [postedIn, filterMap_cons_none (posted?_way hway c _), filterMap_append]
        rfl
      refine ⟨hrest.table.trans hacted.table, ?_, fun pick hpick hnone => ?_, fun o ho => ?_, fun a ha => ?_, fun c => ?_⟩
      · simp only [hposted, ← append_assoc]
        exact hrest.holds
      · have hnil : posts.filterMap pick = [] := by
          rw [filterMap_eq_nil_iff]
          intro o ho
          obtain ⟨c, d, rfl⟩ := hacted.posts o ho
          exact hnone c d
        rw [filterMap_cons_some (hpick _ rfl), filterMap_append, hnil, calls_cons_of_pos hh]
        exact .cons ⟨rfl, hev, hacted.sees⟩ (hrest.shown pick hpick hnone)
      · rcases mem_cons.mp ho with rfl | ho
        · exact .inr ⟨_, rfl, rfl⟩
        · rcases mem_append.mp ho with ho | ho
          · exact .inl (hacted.posts o ho)
          · exact hrest.only o ho
      · rw [hscripts]
        exact mem_append_right _ (hrest.left a ha)
      · have hfew := hrest.few c
        have hone : (postedIn c posts).length ≤ (scripts.headD []).countP Action.isPost :=
          Nat.le_trans (length_filterMap_le ..) hacted.few
        dsimp only at hfew ⊢
        rw [hposted, length_append, hposts]
        omega
    · rw [if_neg hh]
      have hrest := ih h hplain hv
      refine ⟨hrest.table, hrest.holds, fun pick hpick hnone => ?_, hrest.only, hrest.left, hrest.few⟩
      rw [calls_cons_of_neg hh]
      exact hrest.shown pick hpick hnone

theorem Dispatched.filterMap_eq_nil {res : Bus × List Obs × List Script}
    (h : Dispatched bus q entries way ev data scripts res) {pick : Obs → Option Showing}
    (hnone : ∀ c data, pick (.posted c data) = none) (hway : ∀ s : Showing, s.ev = ev → pick (way s) = none) :
    res.2.1.filterMap pick = [] := by
  rw [filterMap_eq_nil_iff]
  intro o ho
  rcases h.only o ho with ⟨c, d, rfl⟩ | ⟨s, hs, rfl⟩
  · exact hnone c d
  · exact hway s hs

end Handlers

/-! ### Processing -/

section Processing
variable {bus : Bus} {q : Class → List Bytes} {cls : Class}

variable {bus' : Bus} {scripts scripts' : List Script} {obs : List Obs}

theorem entries_congr (h : bus'.table = bus.table) : bus'.entries = bus.entries := by
  rw [Bus.entries, Bus.entries, h]

/-- What a loop of `process_events` has done. -/
structure Drained (bus : Bus) (q : Class → List Bytes) (scripts : List Script) (res : Bus × List Obs × List Script)
    (done q' : Class → List Bytes) : Prop where
  table : res.1.table = bus.table
  holds : res.1.Holds q'
  served : Served bus.entries res.2.1 q done q'
  silent : calledIn res.2.1 = []
  left : ∀ action ∈ res.2.2.flatten, action ∈ scripts.flatten

/-- One round: the event in front is delivered and leaves the queue. -/
theorem dispatch_drained {data : Bytes} {rest : List Bytes} {ev : Event} {payload : Bytes} (h : bus.Holds q)
    (hplain : ∀ action ∈ scripts.flatten, action.Plain) (hq : q cls = data :: rest)
    (hdata : data = ev.moduleId :: ev.eventId :: payload) (hcls : ev.cls = cls)
    (hd : dispatch .delivered ev bus.entries scripts bus = (bus', obs, scripts')) :
    Drained bus q scripts (bus'.setQueue (bus'.queue cls).dropCurElem cls, obs, scripts')
        (Function.update (fun _ => []) cls [data])
        (Function.update (fun c => q c ++ postedIn c obs) cls (rest ++ postedIn cls obs)) ∧
      (postedIn cls obs).length + toPost scripts' ≤ toPost scripts := by
  have hspec : Dispatched bus q bus.entries .delivered ev data scripts (bus', obs, scripts') :=
    hd ▸ dispatch_spec h (fun _ _ _ => by nofun) hplain (by rw [hdata]; rfl) (.inl ⟨rest, by rw [hcls, hq]⟩)
  have hqueue : Queues (bus'.queue cls) (data :: (rest ++ postedIn cls obs)) := by
    have := hspec.holds.queues cls
    rwa [hq] at this
  have hwhole : ∀ d ∈ rest ++ postedIn cls obs, Whole cls d := fun d hd =>
    hspec.holds.whole cls d (by rw [hq]; exact mem_cons_of_mem _ hd)
  refine ⟨⟨(table_setQueue ..).trans hspec.table, hspec.holds.setQueue hqueue.dropCurElem hwhole,
    ⟨fun c => ?_, fun c => ?_⟩, hspec.filterMap_eq_nil (fun _ _ => rfl) fun _ _ => rfl, hspec.left⟩, hspec.few cls⟩
  · by_cases hc : c = cls
    · subst hc
      rw [update_self, update_self, hq]
      rfl
    · rw [update_of_ne hc, update_of_ne hc]
      rfl
  · by_cases hc : c = cls
    · subst hc
      rw [update_self, flatMap_singleton, hdata]
      have hshown := hspec.shown (Obs.delivered? c) (fun s hs => if_pos (by rw [hs, hcls])) fun _ _ => rfl
      rwa [hdata] at hshown
    · rw [update_of_ne hc]
      have hnone : deliveredIn c obs = [] :=
        hspec.filterMap_eq_nil (fun _ _ => rfl) fun s hs => if_neg (by rw [hs, hcls]; exact Ne.symm hc)
      rw [hnone]
      exact .nil

theorem Drained.append {done done' q' q'' : Class → List Bytes} {res : Bus × List Obs × List Script}
    (h : Drained bus q scripts (bus', obs, scripts') done q') (h' : Drained bus' q' scripts' res done' q'') :
    Drained bus q scripts (res.1, obs ++ res.2.1, res.2.2) (fun c => done c ++ done' c) q'' where
  table := h'.table.trans h.table
  holds := h'.holds
  served := h.served.append (entries_congr h.table ▸ h'.served)
  silent := by
    rw [calledIn, filterMap_append, append_eq_nil_iff]
    exact ⟨h.silent, h'.silent⟩
  left a ha := h.left a (h'.left a ha)

section
variable (h : bus.Holds q) (hplain : ∀ action ∈ scripts.flatten, action.Plain)
include h hplain

theorem drain_spec {rounds : Nat} (hr : (q cls).length + toPost scripts < rounds) :
    ∃ res done q', drain cls rounds scripts bus = some res ∧ Drained bus q scripts res done q' ∧ q' cls = [] := by
  induction rounds generalizing bus q scripts with
  | zero => exact absurd hr (Nat.not_lt_zero _)
  | succ rounds ih =>
    have hcount := (h.queues cls).count
    cases hq : q cls with
    | nil =>
      rw [hq] at hcount
      refine ⟨(bus, [], scripts), fun _ => [], q, if_pos hcount,
        ⟨rfl, h, ⟨fun c => ?_, fun c => .nil⟩, rfl, fun _ ha => ha⟩, hq⟩
      simp [postedIn]
    | cons data rest =>
      rw [hq, length_cons] at hcount hr
      obtain ⟨⟨moduleId, eventId⟩, payload, hdata, hcls⟩ := h.whole cls data (by rw [hq]; exact mem_cons_self ..)
      have hpop : (bus.queue cls).pop 2 = some [moduleId, eventId] := by
        have hqueue := h.queues cls
        rw [hq] at hqueue
        rw [hqueue.pop 2, hdata]
        rfl
      cases hd : dispatch .delivered ⟨moduleId, eventId⟩ bus.entries scripts bus with
      | mk bus' others =>
        obtain ⟨hround, hfew⟩ := dispatch_drained h hplain hq hdata hcls hd
        obtain ⟨res, done, q', hres, hrest, hnil⟩ := ih hround.holds (fun a ha => hplain a (hround.left a ha))
          (by rw [update_self, length_append]; dsimp only; omega)
        refine ⟨_, _, q', ?_, hround.append hrest, hnil⟩
        rw [drain, if_neg (by rw [hcount]; exact Nat.succ_ne_zero _), hpop]
        simp only [hd, hres]

/-- The queues `process_events` leaves: nothing of what was queued before, only emergency events
that handlers have posted. -/
structure Emptied (obs : List Obs) (q : Class → List Bytes) : Prop where
  normal : q .normal = []
  emerge : q .emerge <:+ postedIn .emerge obs

/-- `process_events` comes to its end; what leaves the queues has been delivered. -/
theorem process_spec :
    ∃ bus' obs done q', bus.process scripts = some (bus', obs) ∧ bus'.table = bus.table ∧ bus'.Holds q' ∧
      Served bus.entries obs q done q' ∧ Emptied obs q' := by
  have hemerge : ∃ res done q', drain .emerge (bus.emerge.elemCnt + toPost scripts + 1) scripts bus = some res ∧
      Drained bus q scripts res done q' ∧ q' .emerge = [] :=
    drain_spec h hplain (by rw [← (h.queues .emerge).count]; exact Nat.lt_succ_self _)
  obtain ⟨⟨bus', obs, scripts'⟩, done, q', hfirst, h1, hnone⟩ := hemerge
  have hnormal : ∃ res done q'', drain .normal (bus'.normal.elemCnt + toPost scripts' + 1) scripts' bus' = some res ∧
      Drained bus' q' scripts' res done q'' ∧ q'' .normal = [] :=
    drain_spec h1.holds (fun a ha => hplain a (h1.left a ha))
      (by rw [← (h1.holds.queues .normal).count]; exact Nat.lt_succ_self _)
  obtain ⟨⟨bus'', obs', scripts''⟩, done', q'', hsecond, h2, hnil⟩ := hnormal
  have hboth := h1.append h2
  refine ⟨bus'', obs ++ obs', _, q'', ?_, hboth.table, hboth.holds, hboth.served, hnil, ?_⟩
  · simp only [Bus.process, hfirst, hsecond]
  · have hlater : q' .emerge ++ postedIn .emerge obs' = done' .emerge ++ q'' .emerge := h2.served.queue .emerge
    rw [hnone, nil_append] at hlater
    rw [postedIn, filterMap_append, ← postedIn, ← postedIn, hlater, ← append_assoc]
    exact suffix_append ..
end

end Processing

/-! ### Calls -/

section Calls
variable {bus : Bus} {q : Class → List Bytes}

/-- What a call has done: its handlers have been shown its bytes, and the queues are as they
were, with what the handlers have posted behind. -/
structure Called (bus : Bus) (q : Class → List Bytes) (m : Msg) (res : Bus × Bool × List Obs) : Prop where
  table : res.1.table = bus.table
  holds : res.1.Holds fun c => q c ++ postedIn c res.2.2
  quiet : ∀ c, deliveredIn c res.2.2 = []
  shown : res.2.1 = true → List.Forall₂ Shows (calledIn res.2.2) (showings bus.entries m.bytes)

/-- The calls that find their own event in front: the queue of its class is empty, or the event
has no data and its handlers do not look for any. -/
def CallFine (bus : Bus) (m : Msg) (scripts : List Script) : Prop :=
  m.Plain ∧ (∀ action ∈ scripts.flatten, action.Plain) ∧ (2 < m.size → (bus.queue m.ev.cls).elemCnt = 0) ∧
    (m.size ≤ 2 → ∀ action ∈ scripts.flatten, action.isPost = true)

instance (bus : Bus) (m : Msg) (scripts : List Script) : Decidable (CallFine bus m scripts) :=
  inferInstanceAs (Decidable (m.Plain ∧ (∀ action ∈ scripts.flatten, action.Plain) ∧
    (2 < m.size → (bus.queue m.ev.cls).elemCnt = 0) ∧ (m.size ≤ 2 → ∀ action ∈ scripts.flatten, action.isPost = true)))

variable {m : Msg} {scripts : List Script}

theorem showings_bytes (hm : m.Plain) (entries : List (Event × Nat)) :
    showings entries m.bytes = calls entries m.ev m.bytes := by
  rw [hm.bytes]
  rfl

/-- The loop over the table, in a call. -/
theorem dispatch_called {bus' : Bus} {obs : List Obs} {scripts' : List Script} (hm : m.Plain) (h : bus.Holds q)
    (hplain : ∀ action ∈ scripts.flatten, action.Plain) (hv : Visible q m.ev m.bytes scripts.flatten)
    (hd : dispatch .called m.ev bus.entries scripts bus = (bus', obs, scripts')) :
    bus'.table = bus.table ∧ (bus'.Holds fun c => q c ++ postedIn c obs) ∧ (∀ c, deliveredIn c obs = []) ∧
      List.Forall₂ Shows (calledIn obs) (showings bus.entries m.bytes) := by
  have hspec : Dispatched bus q bus.entries .called m.ev m.bytes scripts (bus', obs, scripts') :=
    hd ▸ dispatch_spec h (fun _ _ _ => by nofun) hplain (by rw [hm.bytes]; rfl) hv
  refine ⟨hspec.table, hspec.holds, fun c => hspec.filterMap_eq_nil (fun _ _ => rfl) fun _ _ => rfl, ?_⟩
  rw [showings_bytes hm]
  exact hspec.shown Obs.called? (fun _ _ => rfl) fun _ _ => rfl

theorem call_spec (h : bus.Holds q) (hf : CallFine bus m scripts) : Called bus q m (bus.call m scripts) := by
  obtain ⟨hm, hplain, hempty, hblind⟩ := hf
  rw [Bus.call, if_neg (Nat.ne_of_gt (Nat.lt_of_lt_of_le Nat.two_pos hm.1))]
  by_cases hsize : m.size > 2
  · rw [if_pos hsize]
    have hnil : q m.ev.cls = [] :=
      eq_nil_of_length_eq_zero ((h.queues m.ev.cls).count.symm.trans (hempty hsize))
    cases hp : bus.post m with
    | none =>
      refine ⟨rfl, ?_, fun _ => rfl, fun hok => by cases hok⟩
      simpa only [postedIn, filterMap_nil, append_nil] using h
    | some bus₁ =>
      obtain ⟨hpost, htable⟩ := h.post hm hp
      cases hd : dispatch .called m.ev bus₁.entries scripts bus₁ with
      | mk bus' others =>
        obtain ⟨obs, scripts'⟩ := others
        obtain ⟨htable', hholds, hquiet, hshown⟩ := dispatch_called hm hpost hplain
          (.inl ⟨[], by rw [update_self, hnil]; rfl⟩) hd
        have hqueue : Queues (bus'.queue m.ev.cls) (m.bytes :: postedIn m.ev.cls obs) := by
          have := hholds.queues m.ev.cls
          rwa [update_self, hnil] at this
        have hwhole : ∀ data ∈ postedIn m.ev.cls obs, Whole m.ev.cls data := fun data hdata =>
          hholds.whole m.ev.cls data (mem_append_right _ hdata)
        have hq : Function.update (fun c => Function.update q m.ev.cls (q m.ev.cls ++ [m.bytes]) c ++ postedIn c obs)
            m.ev.cls (postedIn m.ev.cls obs) = fun c => q c ++ postedIn c obs := by
          funext c
          by_cases hc : c = m.ev.cls
          · subst hc
            rw [update_self, hnil, nil_append]
          · rw [update_of_ne hc, update_of_ne hc]
        simp only [hd]
        refine ⟨(table_setQueue ..).trans (htable'.trans htable), ?_, hquiet, fun _ => entries_congr htable ▸ hshown⟩
        exact hq ▸ hholds.setQueue hqueue.dropCurElem hwhole
  · rw [if_neg hsize]
    cases hd : dispatch .called m.ev bus.entries scripts bus with
    | mk bus' others =>
      obtain ⟨htable, hholds, hquiet, hshown⟩ :=
        dispatch_called hm h hplain (.inr (hblind (Nat.not_lt.mp hsize))) hd
      exact ⟨htable, hholds, hquiet, fun _ => hshown⟩

end Calls

/-! ### Runs -/

def Fine (bus : Bus) : Op → Prop
  | .post m => m.Plain
  | .call m scripts => CallFine bus m scripts
  | .process scripts => ∀ action ∈ scripts.flatten, action.Plain

instance : ∀ (bus : Bus) (op : Op), Decidable (Fine bus op)
  | _, .post m => inferInstanceAs (Decidable m.Plain)
  | bus, .call m scripts => inferInstanceAs (Decidable (CallFine bus m scripts))
  | _, .process scripts => inferInstanceAs (Decidable (∀ action ∈ scripts.flatten, action.Plain))

section Runs
variable {bus : Bus} {q : Class → List Bytes} {op : Op}

theorem Served.of_quiet {entries : List (Event × Nat)} {obs : List Obs} (h : ∀ c, deliveredIn c obs = []) :
    Served entries obs q (fun _ => []) fun c => q c ++ postedIn c obs :=
  ⟨fun _ => rfl, fun c => by rw [h c]; exact .nil⟩

/-- A step: what leaves the queues has been delivered. -/
theorem step_served (h : bus.Holds q) (hf : Fine bus op) :
    ∃ bus' ok obs done q', step bus op = some (bus', ok, obs) ∧ bus'.table = bus.table ∧ bus'.Holds q' ∧
      Served bus.entries obs q done q' := by
  cases op with
  | post m =>
    rw [step]
    cases hp : bus.post m with
    | none =>
      refine ⟨bus, false, [], _, _, rfl, rfl, ?_, .of_quiet fun _ => rfl⟩
      simpa only [postedIn, filterMap_nil, append_nil] using h
    | some bus' =>
      obtain ⟨hpost, htable⟩ := h.post hf hp
      refine ⟨bus', true, [.posted m.ev.cls m.bytes], _, _, rfl, htable, ?_, .of_quiet fun _ => rfl⟩
      have hposted := posted_then q m.ev.cls m.bytes []
      simp only [postedIn, filterMap_nil, append_nil] at hposted
      exact hposted ▸ hpost
  | call m scripts =>
    have hcall := call_spec h hf
    exact ⟨_, _, _, _, _, rfl, hcall.table, hcall.holds, .of_quiet hcall.quiet⟩
  | process scripts =>
    obtain ⟨bus', obs, done, q', hp, htable, hholds, hserved, _⟩ := process_spec h hf
    exact ⟨bus', true, obs, done, q', by rw [step, hp], htable, hholds, hserved⟩

def happened (trace : List (Op × Bool × List Obs)) : List Obs := trace.flatMap fun entry => entry.2.2

def Inv (start : Bus) (trace : List (Op × Bool × List Obs)) (bus : Bus) : Prop :=
  ∃ done q, bus.table = start.table ∧ bus.Holds q ∧ Served start.entries (happened trace) (fun _ => []) done q

theorem inv_step {start : Bus} {past : List (Op × Bool × List Obs)} (h : Inv start past bus) (hf : Fine bus op) :
    ∃ bus' out, machine.step bus op = some (bus', out) ∧ Inv start (past ++ [(op, out)]) bus' := by
  obtain ⟨done, q, htable, hholds, hserved⟩ := h
  obtain ⟨bus', ok, obs, done', q', hstep, htable', hholds', hserved'⟩ := step_served hholds hf
  refine ⟨bus', (ok, obs), hstep, fun c => done c ++ done' c, q', htable'.trans htable, hholds', ?_⟩
  rw [happened, flatMap_append, flatMap_singleton]
  exact hserved.append (entries_congr htable ▸ hserved')

theorem inv_init (table : List Event) (size emergencyPercent : Nat) :
    Inv (.init table size emergencyPercent) [] (.init table size emergencyPercent) := by
  refine ⟨fun _ => [], fun _ => [], rfl, ⟨fun c => ?_, fun _ _ hd => absurd hd not_mem_nil⟩,
    fun _ => rfl, fun _ => .nil⟩
  cases c <;> exact queues_init _

/-- **Every event is delivered once.** In every run of fine steps, for each class: what has been
posted is, in order, the events that have been delivered, each to every handler it is for and
with its own bytes, and then those that are queued. A call shows its own bytes, and leaves the
queues as they were but for what its handlers post. `process_events` leaves nothing in the queues
that was there before it. -/
theorem events_delivered_once (table : List Event) (size emergencyPercent : Nat) (ops : List Op)
    (hm : machine.Meets Fine (.init table size emergencyPercent) ops) :
    ∃ bus trace, machine.run (.init table size emergencyPercent) ops = some (bus, trace) ∧
      (∀ c, ∃ done, postedIn c (happened trace) = done ++ (bus.queue c).contents ∧
        List.Forall₂ Shows (deliveredIn c (happened trace))
          (done.flatMap (showings (Bus.init table size emergencyPercent).entries))) ∧
      (∀ pre m scripts rest bus' past, ops = pre ++ .call m scripts :: rest →
        machine.run (.init table size emergencyPercent) pre = some (bus', past) →
          (∀ c, ((bus'.call m scripts).1.queue c).contents =
            (bus'.queue c).contents ++ postedIn c (bus'.call m scripts).2.2) ∧
          ((bus'.call m scripts).2.1 = true → List.Forall₂ Shows (calledIn (bus'.call m scripts).2.2)
            (showings (Bus.init table size emergencyPercent).entries m.bytes))) ∧
      ∀ pre scripts rest bus' past, ops = pre ++ .process scripts :: rest →
        machine.run (.init table size emergencyPercent) pre = some (bus', past) →
          ∃ bus'' obs, bus'.process scripts = some (bus'', obs) ∧ Emptied obs fun c => (bus''.queue c).contents := by
  have hrun : ∀ {ops}, machine.Meets Fine (.init table size emergencyPercent) ops →
      ∃ bus trace, machine.run (.init table size emergencyPercent) ops = some (bus, trace) ∧
        Inv (.init table size emergencyPercent) trace bus := fun hm =>
    machine.run_total Fine (Inv _) (fun _ _ _ h hf => inv_step h hf) (inv_init table size emergencyPercent) hm
  obtain ⟨bus, trace, hr, done, q, _, hholds, hserved⟩ := hrun hm
  refine ⟨bus, trace, hr, fun c => ⟨done c, ?_, hserved.shown c⟩, ?_, ?_⟩
  · rw [(hholds.queues c).contents]
    exact hserved.queue c
  · intro pre m scripts rest bus' past hops hpre
    obtain ⟨hfirst, hthen⟩ := machine.meets_append (hops ▸ hm) hpre
    obtain ⟨_, _, hr', _, q', htable, hholds', _⟩ := hrun hfirst
    cases hr'.symm.trans hpre
    have hcall := call_spec hholds' hthen.1
    refine ⟨fun c => ?_, entries_congr htable ▸ hcall.shown⟩
    rw [(hcall.holds.queues c).contents, (hholds'.queues c).contents]
  · intro pre scripts rest bus' past hops hpre
    obtain ⟨hfirst, hthen⟩ := machine.meets_append (hops ▸ hm) hpre
    obtain ⟨_, _, hr', _, q', -, hholds', -⟩ := hrun hfirst
    cases hr'.symm.trans hpre
    obtain ⟨bus'', obs, -, q'', hprocess, -, hholds'', -, hempty⟩ := process_spec hholds' hthen.1
    refine ⟨bus'', obs, hprocess, ?_, ?_⟩
    · rw [(hholds''.queues .normal).contents, hempty.normal]
    · rw [(hholds''.queues .emerge).contents]
      exact hempty.emerge

end Runs

def message (moduleId eventId : UInt8) (data : Bytes) : Msg := ⟨⟨moduleId, eventId⟩, data, data.length + 2, Nat.le_refl _⟩

def twoHandlers : List Event := [⟨1, 0xff⟩, ⟨1, 2⟩, ⟨0, 0⟩]

/-- The handler of the first event posts an emergency event before it looks; a call comes when
all is done. -/
def fineOps : List Op :=
  [.post (message 1 2 [10]), .post (message 1 3 [11]), .process [[.post (message 1 0x84 []), .peek 16], [.peek 1]],
    .process [], .call (message 1 2 [20, 21]) [[.peek 16], [.post (message 1 3 [])]]]

theorem events_delivered_once_five :
    machine.Meets Fine (.init twoHandlers 64 50) fineOps ∧
    ∃ bus trace, machine.run (.init twoHandlers 64 50) fineOps = some (bus, trace) ∧
      ∀ c, ∃ done, postedIn c (happened trace) = done ++ (bus.queue c).contents ∧
        List.Forall₂ Shows (deliveredIn c (happened trace))
          (done.flatMap (showings (Bus.init twoHandlers 64 50).entries)) :=
  have hm : machine.Meets Fine (.init twoHandlers 64 50) fineOps := by decide +kernel
  have ⟨bus, trace, hr, hdone, _⟩ := events_delivered_once twoHandlers 64 50 fineOps hm
  ⟨hm, bus, trace, hr, hdone⟩

/-- A call while an event is queued shows the bytes of that event and throws it away; the
event of the call is delivered in its place. And of a message of 258 bytes two are queued. -/
theorem call_drops_queued_event :
    (machine.run (.init twoHandlers 64 50) [.post (message 1 4 [10]), .call (message 1 3 [20]) [[.peek 16]],
        .process [[.peek 16]]]).map (fun r =>
          (postedIn .normal (happened r.2), calledIn (happened r.2), deliveredIn .normal (happened r.2))) =
      some ([[1, 4, 10]], [⟨0, ⟨1, 3⟩, [(16, some [1, 4, 10])]⟩], [⟨0, ⟨1, 3⟩, [(16, some [1, 3, 20])]⟩]) ∧
    (machine.run (.init twoHandlers 1024 0) [.post (message 1 4 (List.replicate 256 7))]).map (fun r =>
        (postedIn .normal (happened r.2), r.1.normal.contents)) =
      some ([1 :: 4 :: List.replicate 256 7], [[1, 4]]) := by
  decide +kernel

end Qumios.EventBus
