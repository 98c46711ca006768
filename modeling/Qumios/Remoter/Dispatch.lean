import Qumios.Lib.Bindings
import Qumios.Remoter.Filter

/-! What is dispatched is what was received, while one slot serves.

The slot behind `data_msg` is the last one of the table whenever the sender is not found. So the
table works where the slot that is picked is the last one too: while the table is unused, and
then for the sender that was first, as the other slots are marked as used with an address of zeros
and never filled. A table of a single slot also takes another sender, if no repeat of the one it
holds can come any more. -/
namespace Qumios.Remoter
open Buffer Run List

/-! ### What a trace shows -/

def handledIn : Event × Output → List (Bytes × (Nat × UInt8))
  | (e, .dispatched _) => [(e.adv.mac, (e.now, e.adv.sno))]
  | _ => []

def handled (trace : List (Event × Output)) : List (Bytes × (Nat × UInt8)) := trace.flatMap handledIn

theorem handled_snoc (trace : List (Event × Output)) (x : Event × Output) :
    handled (trace ++ [x]) = handled trace ++ handledIn x := by
  rw [handled, flatMap_append, flatMap_singleton]
  rfl

/-- A callback is called with what the advertisement says. -/
structure Callback.Of (adv : Adv) (c : Callback) : Prop where
  opcode : c.opcode = adv.opcode
  bleAddr : c.bleAddr = adv.mac
  groupId : c.groupId = adv.groupId
  param : c.param = adv.param

def Answers : Event × Output → Prop
  | (e, .dispatched callbacks) => ∀ c ∈ callbacks, c.Of e.adv
  | (_, .ignored) => True
  | (_, .fault) => False

def Repeats (before : List (Event × Output)) (e : Event) : Prop :=
  ∃ start, newest (handled before) e.adv.mac = some (start, e.adv.sno) ∧ e.now < start + dataTimeoutMs

def Filters (trace : List (Event × Output)) : Prop :=
  ∀ before x after, trace = before ++ x :: after → Repeats before x.1 → x.2 = .ignored

theorem Filters.snoc {trace : List (Event × Output)} (h : Filters trace) {x : Event × Output}
    (hx : Repeats trace x.1 → x.2 = .ignored) : Filters (trace ++ [x]) := by
  intro before y after heq
  obtain ⟨rfl, rfl, rfl⟩ | ⟨rest, rfl, hrest⟩ := split_snoc heq
  · exact hx
  · exact h before y rest hrest

def OneSlot (trace : List (Event × Output)) (filter : List Slot) : Prop :=
  ∀ x ∈ handled trace, ∀ (i j : Nat) (p q : Slot), filter[i]? = some p → filter[j]? = some q →
    p.isUse = true → q.isUse = true → p.bleAddr = x.1 → q.bleAddr = x.1 → i = j

/-! ### The record and its callbacks -/

def Slot.enter (slot : Slot) (now : UInt32) (adv : Adv) : Slot := { slot with sno := adv.sno }.fill now adv

theorem getD_splice_zero (buf data : Bytes) {i : Nat} (hi : i < data.length) :
    (splice buf 0 data).getD i 0 = data.getD i 0 := by
  simp [splice, getD_eq_getElem?_getD, getElem?_append_left hi]

theorem paramLen_enter (slot : Slot) (now : UInt32) {adv : Adv} (hmin : minNum ≤ adv.bytes.length) :
    (slot.enter now adv).paramLen.toNat = adv.bytes.length - minNum := by
  have hmax := adv.fits
  unfold maxNum at hmax
  show (UInt8.ofNat adv.bytes.length - UInt8.ofNat minNum).toNat = _
  rw [UInt8.toNat_sub, UInt8.toNat_ofNat', UInt8.toNat_ofNat']
  omega

theorem callback_enter (slot : Slot) (now : UInt32) {adv : Adv} (hmin : minNum ≤ adv.bytes.length) (index : Nat) :
    ((slot.enter now adv).callback index).Of adv := by
  have hlen : 16 < adv.bytes.length := hmin
  refine ⟨getD_splice_zero _ _ (by omega), rfl, getD_splice_zero _ _ (by omega), ?_⟩
  show ((splice slot.recvData 0 adv.bytes).drop 17).take (slot.enter now adv).paramLen.toNat = adv.bytes.drop 17
  rw [paramLen_enter slot now hmin, splice, take_zero, nil_append,
    drop_append_of_le_length (by omega)]
  exact take_left' length_drop

theorem dispatch_spec (now : UInt32) {record : Slot} (hlen : record.paramLen.toNat ≤ paramMaxLen) (cmds : List Cmd)
    (index : Nat) (p : Pairing) :
    ∃ p' callbacks, dispatch now record cmds index p = some (p', callbacks) ∧
      ∀ c ∈ callbacks, ∃ i, c = record.callback i := by
  induction cmds generalizing index p with
  | nil => exact ⟨p, [], rfl, fun _ hc => absurd hc not_mem_nil⟩
  | cons cmd rest ih =>
    rw [dispatch]
    split
    · exact ih (index + 1) p
    · split
      next p₁ ok _ =>
      obtain ⟨p', callbacks, hrest, hall⟩ := ih (index + 1) p₁
      split
      · rw [hrest]
        exact ⟨p', record.callback index :: callbacks, rfl, forall_mem_cons.mpr ⟨⟨index, rfl⟩, hall⟩⟩
      · exact ⟨p', callbacks, hrest, hall⟩

/-! ### What the merge does -/

section Merge
variable {now : UInt32} {adv : Adv}

variable {slots : List Slot}

/-- Slots of other senders are passed. -/
theorem scan_skip (now : UInt32) (h : ∀ slot ∈ slots, slot.isUse = false ∨ slot.bleAddr ≠ adv.mac)
    (rest : List Slot) (index : Nat) (timeout : UInt32) (oldest : Option Nat) :
    ∃ timeout' oldest', scan now adv (slots ++ rest) index timeout oldest =
      scan now adv rest (index + slots.length) timeout' oldest' := by
  induction slots generalizing index timeout oldest with
  | nil => exact ⟨timeout, oldest, rfl⟩
  | cons slot slots ih =>
    have hrest := ih fun s hs => h s (mem_cons_of_mem _ hs)
    rw [cons_append, scan, length_cons, Nat.add_comm slots.length, ← Nat.add_assoc]
    rcases h slot mem_cons_self with hslot | hslot
    · rw [hslot]
      exact hrest (index + 1) timeout oldest
    · cases slot.isUse with
      | false => exact hrest (index + 1) timeout oldest
      | true =>
        simp only [if_true, hslot, ne_eq, not_false_eq_true]
        exact hrest (index + 1) _ _

theorem scan_unused (h : ∀ slot ∈ slots, slot.isUse = false) (index : Nat) (timeout : UInt32) (oldest : Option Nat) :
    scan now adv slots index timeout oldest = .missing oldest := by
  induction slots generalizing index with
  | nil => rfl
  | cons slot slots ih =>
    rw [scan, h slot mem_cons_self]
    exact ih (fun s hs => h s (mem_cons_of_mem _ hs)) (index + 1)

theorem takeUnused_unused (slot : Slot) (h : ∀ s ∈ slots ++ [slot], s.isUse = false) (index : Nat)
    (last : Option Nat) :
    takeUnused (slots ++ [slot]) index last =
      ((slots ++ [slot]).map fun s => { s with isUse := true }, some (index + slots.length)) := by
  induction slots generalizing index last with
  | nil => simp [takeUnused, h slot (by simp)]
  | cons s slots ih =>
    rw [cons_append, takeUnused, ih (fun x hx => h x (mem_cons_of_mem _ hx))]
    simp only [map_cons, length_cons]
    rw [Nat.add_assoc, Nat.add_comm 1]

theorem modify_last (slots : List Slot) (slot : Slot) (f : Slot → Slot) :
    (slots ++ [slot]).modify slots.length f = slots ++ [f slot] := by
  induction slots with
  | nil => rfl
  | cons s slots ih => simpa using ih

theorem copy_last (slots : List Slot) (slot : Slot) :
    copy (slots ++ [slot]) slots.length slots.length now adv = slots ++ [slot.enter now adv] := by
  rw [copy, modify_last, modify_last]
  rfl

theorem merge_found {slot : Slot} (hmin : minNum ≤ adv.bytes.length)
    (hscan : scan now adv (slots ++ [slot]) 0 0xFFFFFFF none = .found slots.length) :
    bleScanMsgMerge (slots ++ [slot]) now adv = (slots ++ [slot.enter now adv], some slots.length) := by
  simp only [bleScanMsgMerge, if_neg (Nat.not_lt.mpr hmin), hscan, copy_last]

theorem merge_missing {filter : List Slot} (slots : List Slot) {slot : Slot} {oldest : Option Nat}
    (hmin : minNum ≤ adv.bytes.length)
    (hscan : scan now adv filter 0 0xFFFFFFF none = .missing oldest)
    (htake : takeUnused filter 0 oldest = (slots ++ [slot], some slots.length)) :
    bleScanMsgMerge filter now adv = (slots ++ [slot.enter now adv], some slots.length) := by
  have hlast : (slots ++ [slot]).length - 1 = slots.length := by simp
  simp only [bleScanMsgMerge, if_neg (Nat.not_lt.mpr hmin), hscan, htake, hlast, copy_last]

end Merge

/-! ### One slot serves -/

/-- The table has one slot, and it is free, has the sender, or can be given up; or the sender is in the
table or the table is unused, and its address is not of zeros. -/
def Served (cfg : Config) (s : State) (e : Event) : Prop :=
  headerMatch cfg e.adv = true →
    (cfg.filterNum = 1 ∧ ∀ slot ∈ s.filter,
      slot.isUse = false ∨ slot.bleAddr = e.adv.mac ∨ timeLeft (clock e.now) slot.dataTimeout = 0) ∨
    (e.adv.mac ≠ zeroAddr ∧ ((∀ slot ∈ s.filter, slot.isUse = false) ∨
      ∃ slot ∈ s.filter, slot.isUse = true ∧ slot.bleAddr = e.adv.mac))

instance (cfg : Config) (s : State) : DecidablePred (Served cfg s) := fun e =>
  inferInstanceAs (Decidable (headerMatch cfg e.adv = true →
    (cfg.filterNum = 1 ∧ ∀ slot ∈ s.filter,
      slot.isUse = false ∨ slot.bleAddr = e.adv.mac ∨ timeLeft (clock e.now) slot.dataTimeout = 0) ∨
    (e.adv.mac ≠ zeroAddr ∧ ((∀ slot ∈ s.filter, slot.isUse = false) ∨
      ∃ slot ∈ s.filter, slot.isUse = true ∧ slot.bleAddr = e.adv.mac))))

/-- The last slot has the last sender, and the others have none. -/
structure Live (cfg : Config) (trace : List (Event × Output)) (s : State) (others : List Slot) (active : Slot) :
    Prop where
  filter : s.filter = others ++ [active]
  num : others.length + 1 = cfg.filterNum
  used : active.isUse = true
  idle : ∀ slot ∈ others, slot.isUse = true ∧ slot.bleAddr = zeroAddr
  alone : others ≠ [] → active.bleAddr ≠ zeroAddr ∧ ∀ x ∈ handled trace, x.1 = active.bleAddr
  last : ∃ start ≤ s.now, newest (handled trace) active.bleAddr = some (start, active.sno) ∧
    active.dataTimeout = clock (start + dataTimeoutMs)
  past : ∀ a start sno, a ≠ active.bleAddr → newest (handled trace) a = some (start, sno) →
    start + dataTimeoutMs ≤ s.now

inductive Layout (cfg : Config) (trace : List (Event × Output)) (s : State) : Prop where
  | fresh (filter : s.filter = List.replicate cfg.filterNum .zero) (unheard : handled trace = [])
  | live (others : List Slot) (active : Slot) (h : Live cfg trace s others active)

/-- An advertisement that is entered in the last slot, and is no repeat. -/
structure Entered (cfg : Config) (trace : List (Event × Output)) (e : Event) (others : List Slot) (base : Slot) :
    Prop where
  num : others.length + 1 = cfg.filterNum
  used : base.isUse = true
  idle : ∀ slot ∈ others, slot.isUse = true ∧ slot.bleAddr = zeroAddr
  alone : others ≠ [] → e.adv.mac ≠ zeroAddr ∧ ∀ x ∈ handled trace, x.1 = e.adv.mac
  past : ∀ a start sno, newest (handled trace) a = some (start, sno) → a ≠ e.adv.mac ∨ sno = e.adv.sno →
    start + dataTimeoutMs ≤ e.now

section Step
variable {cfg : Config} {trace : List (Event × Output)} {s : State} {e : Event}

theorem over_of_timeLeft {start : Nat} (hstart : start ≤ e.now)
    (hleft : timeLeft (clock e.now) (clock (start + dataTimeoutMs)) = 0) : start + dataTimeoutMs ≤ e.now := by
  by_contra hlt
  exact timeLeft_ne_zero hstart (Nat.lt_of_not_le hlt) hleft

def Slot.claimed : Slot := { Slot.zero with isUse := true }

/-- The first advertisement. -/
theorem merge_fresh (hmin : minNum ≤ e.adv.bytes.length) (hfilter : s.filter = replicate cfg.filterNum .zero)
    (hunheard : handled trace = []) (hmac : cfg.filterNum = 1 ∨ e.adv.mac ≠ zeroAddr) :
    ∃ others base, Entered cfg trace e others base ∧
      bleScanMsgMerge s.filter (clock e.now) e.adv =
        (others ++ [base.enter (clock e.now) e.adv], some others.length) := by
  obtain ⟨k, hk⟩ := Nat.exists_eq_succ_of_ne_zero cfg.pos.ne'
  have hsplit : s.filter = replicate k .zero ++ [.zero] := by
    rw [hfilter, hk, replicate_succ']
  have hunused : ∀ slot ∈ replicate k Slot.zero ++ [.zero], slot.isUse = false := by
    intro slot hslot
    rw [← replicate_succ'] at hslot
    rw [eq_of_mem_replicate hslot]
    rfl
  refine ⟨replicate k .claimed, .claimed,
    ⟨by rw [length_replicate, hk], rfl, fun slot hslot => ?_, fun hne => ⟨?_, ?_⟩, ?_⟩, ?_⟩
  · rw [eq_of_mem_replicate hslot]
    exact ⟨rfl, rfl⟩
  · refine hmac.resolve_left fun hone => hne ?_
    obtain rfl : k = 0 := by omega
    rfl
  · rw [hunheard]
    exact fun x hx => absurd hx not_mem_nil
  · rw [hunheard]
    exact fun a start sno hnone => by cases hnone
  · rw [hsplit]
    refine merge_missing _ hmin (scan_unused hunused 0 _ none) ?_
    rw [takeUnused_unused .zero hunused, map_append, map_replicate]
    simp only [Nat.zero_add, length_replicate]
    rfl

section Live
variable {others : List Slot} {active : Slot}

/-- The advertisement is ignored, or entered in the last slot. -/
def Merges (cfg : Config) (trace : List (Event × Output)) (s : State) (e : Event) (others : List Slot)
    (active : Slot) : Prop :=
  bleScanMsgMerge s.filter (clock e.now) e.adv = (s.filter, none) ∨
    Entered cfg trace e others active ∧ bleScanMsgMerge s.filter (clock e.now) e.adv =
      (others ++ [active.enter (clock e.now) e.adv], some others.length)

section
variable (h : Live cfg trace s others active) (hmin : minNum ≤ e.adv.bytes.length) (hnow : s.now ≤ e.now)
include h hmin hnow

/-- The sender has the last slot. -/
theorem Live.merge_known (hmac : active.bleAddr = e.adv.mac) : Merges cfg trace s e others active := by
  have hother : ∀ slot ∈ others, slot.isUse = false ∨ slot.bleAddr ≠ e.adv.mac := by
    intro slot hslot
    rw [(h.idle slot hslot).2, ← hmac]
    exact .inr (h.alone (ne_nil_of_mem hslot)).1.symm
  obtain ⟨timeout, oldest, hskip⟩ := scan_skip (clock e.now) hother [active] 0 0xFFFFFFF none
  rw [Merges, h.filter]
  by_cases hrepeat : active.sno = e.adv.sno ∧ timeLeft (clock e.now) active.dataTimeout ≠ 0
  · have hscan : scan (clock e.now) e.adv (others ++ [active]) 0 0xFFFFFFF none = .repeated := by
      rw [hskip, scan, h.used, if_pos rfl, if_neg (not_not.mpr hmac), if_pos hrepeat]
    simp only [bleScanMsgMerge, if_neg (Nat.not_lt.mpr hmin), hscan, true_or]
  · have hscan : scan (clock e.now) e.adv (others ++ [active]) 0 0xFFFFFFF none = .found others.length := by
      rw [hskip, scan, h.used, if_pos rfl, if_neg (not_not.mpr hmac), if_neg hrepeat, Nat.zero_add]
    refine .inr ⟨⟨h.num, h.used, h.idle, hmac ▸ h.alone, fun a start sno hnewest hwhich => ?_⟩, merge_found hmin hscan⟩
    by_cases ha : a = active.bleAddr
    · obtain ⟨start', hstart', hnewest', htimeout⟩ := h.last
      rw [ha, hnewest'] at hnewest
      obtain ⟨rfl, rfl⟩ := Prod.mk.inj (Option.some.inj hnewest)
      have hsno : active.sno = e.adv.sno := hwhich.resolve_left (not_not.mpr (ha.trans hmac))
      rw [htimeout] at hrepeat
      exact over_of_timeLeft (hstart'.trans hnow) (by simpa [hsno] using hrepeat)
    · exact (h.past a start sno ha hnewest).trans hnow

/-- Another sender, and the data timeout of the only slot is over. -/
theorem Live.merge_other (hone : cfg.filterNum = 1) (hmac : active.bleAddr ≠ e.adv.mac)
    (hleft : timeLeft (clock e.now) active.dataTimeout = 0) : Merges cfg trace s e others active := by
  obtain rfl : others = [] := length_eq_zero_iff.mp (by have := h.num; omega)
  obtain ⟨oldest, hscan, hwhich⟩ : ∃ oldest, scan (clock e.now) e.adv [active] 0 0xFFFFFFF none = .missing oldest ∧
      (oldest = none ∨ oldest = some 0) := by
    refine ⟨_, by rw [scan, h.used, if_pos rfl, if_pos hmac]; rfl, ?_⟩
    split
    · exact .inr rfl
    · exact .inl rfl
  have htake : takeUnused [active] 0 oldest = ([active], oldest) := by
    have hsame : { active with isUse := true } = active := congrArg (fun u => { active with isUse := u }) h.used.symm
    simp only [takeUnused, h.used, if_true, hsame]
  have hentered : Entered cfg trace e [] active := by
    refine ⟨h.num, h.used, h.idle, fun hne => absurd rfl hne, fun a start sno hnewest _ => ?_⟩
    by_cases ha : a = active.bleAddr
    · obtain ⟨start', hstart', hnewest', htimeout⟩ := h.last
      rw [ha, hnewest'] at hnewest
      obtain ⟨rfl, rfl⟩ := Prod.mk.inj (Option.some.inj hnewest)
      rw [htimeout] at hleft
      exact over_of_timeLeft (hstart'.trans hnow) hleft
    · exact (h.past a start sno ha hnewest).trans hnow
  rw [Merges, h.filter, nil_append]
  rcases hwhich with rfl | rfl
  · left
    simp only [bleScanMsgMerge, if_neg (Nat.not_lt.mpr hmin), hscan, htake]
  · exact .inr ⟨hentered, merge_missing [] hmin hscan htake⟩
end

end Live

theorem minNum_le_of_headerMatch (h : headerMatch cfg e.adv = true) : minNum ≤ e.adv.bytes.length := by
  simp only [headerMatch, Bool.and_eq_true, decide_eq_true_eq] at h
  exact h.1.1.1.1.1

/-- **An advertisement that is served is ignored, or entered in the last slot, which is returned.** -/
theorem merge_spec (h : Layout cfg trace s) (hc : Served cfg s e) (hnow : s.now ≤ e.now)
    (hheader : headerMatch cfg e.adv = true) :
    bleScanMsgMerge s.filter (clock e.now) e.adv = (s.filter, none) ∨
    ∃ others base, Entered cfg trace e others base ∧ bleScanMsgMerge s.filter (clock e.now) e.adv =
      (others ++ [base.enter (clock e.now) e.adv], some others.length) := by
  have hmin := minNum_le_of_headerMatch hheader
  have hserved := hc hheader
  cases h with
  | fresh hfilter hunheard =>
    exact .inr (merge_fresh hmin hfilter hunheard (hserved.imp And.left And.left))
  | live others active h =>
    have hactive : active ∈ s.filter := by rw [h.filter]; simp
    have hcases : active.bleAddr = e.adv.mac ∨
        cfg.filterNum = 1 ∧ timeLeft (clock e.now) active.dataTimeout = 0 := by
      rcases hserved with ⟨hone, hslots⟩ | ⟨hzero, hunused | ⟨slot, hslot, -, haddr⟩⟩
      · rcases hslots active hactive with hunused | haddr | hleft
        · rw [h.used] at hunused
          cases hunused
        · exact .inl haddr
        · exact .inr ⟨hone, hleft⟩
      · have hunused := hunused active hactive
        rw [h.used] at hunused
        cases hunused
      · rw [h.filter, mem_append, mem_singleton] at hslot
        rcases hslot with hslot | rfl
        · exact absurd (haddr.symm.trans (h.idle slot hslot).2) hzero
        · exact .inl haddr
    have hmerge : Merges cfg trace s e others active := by
      by_cases hmac : active.bleAddr = e.adv.mac
      · exact h.merge_known hmin hnow hmac
      · obtain ⟨hone, hleft⟩ := hcases.resolve_left hmac
        exact h.merge_other hmin hnow hone hmac hleft
    exact hmerge.imp id fun hentered => ⟨others, active, hentered⟩

/-! ### Runs -/

structure Inv (cfg : Config) (trace : List (Event × Output)) (s : State) : Prop where
  layout : Layout cfg trace s
  answers : ∀ x ∈ trace, Answers x
  filters : Filters trace

theorem inv_init (cfg : Config) (pairing : Pairing) : Inv cfg [] (init cfg pairing) :=
  ⟨.fresh rfl rfl, fun _ hx => absurd hx not_mem_nil, fun _ _ _ h => absurd h.symm (by simp)⟩

/-- Later, with the same table. -/
theorem Layout.later (h : Layout cfg trace s) (hnow : s.now ≤ e.now) :
    Layout cfg (trace ++ [(e, .ignored)]) { s with now := e.now } := by
  have hhandled : handled (trace ++ [(e, .ignored)]) = handled trace := by
    rw [handled_snoc]
    exact append_nil _
  cases h with
  | fresh hfilter hunheard => exact .fresh hfilter (hhandled.trans hunheard)
  | live others active h =>
    obtain ⟨start, hstart, hnewest, htimeout⟩ := h.last
    refine .live others active ⟨h.filter, h.num, h.used, h.idle, ?_, ⟨start, hstart.trans hnow, ?_, htimeout⟩, ?_⟩
    · rw [hhandled]
      exact h.alone
    · rw [hhandled]
      exact hnewest
    · rw [hhandled]
      exact fun a start sno ha hn => (h.past a start sno ha hn).trans hnow

variable {others : List Slot}

/-- The table behind an advertisement that was entered. -/
theorem Entered.layout {base : Slot} (h : Entered cfg trace e others base) (pairing : Pairing)
    (callbacks : List Callback) :
    Layout cfg (trace ++ [(e, .dispatched callbacks)])
      ⟨e.now, others ++ [base.enter (clock e.now) e.adv], pairing⟩ := by
  have hnewest : ∀ a, newest (handled (trace ++ [(e, .dispatched callbacks)])) a =
      if a = e.adv.mac then some (e.now, e.adv.sno) else newest (handled trace) a := by
    intro a
    rw [handled_snoc, newest_append]
    show (newest [(e.adv.mac, (e.now, e.adv.sno))] a).or _ = _
    rw [newest_cons, newest_nil, Option.none_or]
    split <;> rfl
  refine .live others _ ⟨rfl, h.num, h.used, h.idle, fun hne => ⟨(h.alone hne).1, ?_⟩,
    ⟨e.now, le_rfl, ?_, ?_⟩, fun a start sno ha hn => ?_⟩
  · rw [handled_snoc]
    exact forall_snoc (h.alone hne).2 rfl
  · rw [hnewest]
    exact if_pos rfl
  · exact (UInt32.ofNat_add ..).symm
  · have hmac : a ≠ e.adv.mac := ha
    rw [hnewest, if_neg hmac] at hn
    exact h.past a start sno hn (.inl hmac)

theorem Entered.not_repeats {base : Slot} (h : Entered cfg trace e others base) : ¬ Repeats trace e := by
  rintro ⟨start, hnewest, hlt⟩
  exact absurd (h.past _ start _ hnewest (.inr rfl)) (Nat.not_le.mpr hlt)

/-- **What a step that is served keeps.** -/
theorem inv_step (h : Inv cfg trace s) (hc : Served cfg s e) {s' : State} {o : Output}
    (hstep : (machine cfg).step s e = some (s', o)) : Inv cfg (trace ++ [(e, o)]) s' := by
  by_cases hnow : s.now ≤ e.now
  swap
  · simp [machine, step, hnow] at hstep
  have hread : bleScanRead cfg s e.now e.adv = (s', o) := by simpa [machine, step, hnow] using hstep
  -- An advertisement that comes to nothing.
  have hignored : (s', o) = ({ s with now := e.now }, .ignored) → Inv cfg (trace ++ [(e, o)]) s' := by
    intro heq
    obtain ⟨rfl, rfl⟩ := Prod.mk.inj heq
    exact ⟨h.layout.later hnow, forall_snoc h.answers trivial, h.filters.snoc fun _ => rfl⟩
  cases hheader : headerMatch cfg e.adv with
  | false => exact hignored (by rw [← hread, bleScanRead, hheader]; rfl)
  | true =>
    rcases merge_spec h.layout hc hnow hheader with hmerge | ⟨others, base, hentered, hmerge⟩
    · exact hignored (by rw [← hread, bleScanRead, hheader, if_pos rfl, hmerge])
    · have hmin := minNum_le_of_headerMatch hheader
      have hlen : (base.enter (clock e.now) e.adv).paramLen.toNat ≤ paramMaxLen := by
        rw [paramLen_enter base _ hmin]
        exact Nat.sub_le_sub_right e.adv.fits minNum
      obtain ⟨pairing, callbacks, hdispatch, hall⟩ := dispatch_spec (clock e.now) hlen cfg.cmdTable 0 s.pairing
      have hrecord : (others ++ [base.enter (clock e.now) e.adv]).getD others.length .zero =
          base.enter (clock e.now) e.adv := by simp
      rw [bleScanRead, hheader, if_pos rfl, hmerge] at hread
      simp only [hrecord, hdispatch] at hread
      obtain ⟨rfl, rfl⟩ := Prod.mk.inj hread
      refine ⟨hentered.layout pairing callbacks, forall_snoc h.answers fun c hc => ?_,
        h.filters.snoc fun hrepeats => absurd hrepeats hentered.not_repeats⟩
      obtain ⟨i, rfl⟩ := hall c hc
      exact callback_enter base _ hmin i

/-- In a table where the last slot serves, no sender has two slots. -/
theorem Layout.oneSlot (h : Layout cfg trace s) : OneSlot trace s.filter := by
  intro x hx i j p q hp hq _ _ hpx hqx
  cases h with
  | fresh _ hunheard =>
    rw [hunheard] at hx
    exact absurd hx List.not_mem_nil
  | live others active h =>
    -- A slot with the address of a sender is the last one.
    have hlast : ∀ (i : Nat) (p : Slot), s.filter[i]? = some p → p.bleAddr = x.1 → i = others.length := by
      intro i p hp haddr
      rw [h.filter] at hp
      by_cases hi : i < others.length
      · rw [List.getElem?_append_left hi] at hp
        have hmem := List.mem_of_getElem? hp
        obtain ⟨hzero, hall⟩ := h.alone (List.ne_nil_of_mem hmem)
        rw [(h.idle p hmem).2, hall x hx] at haddr
        exact absurd haddr.symm hzero
      · have hbound := (List.getElem?_eq_some_iff.mp hp).1
        rw [List.length_append, List.length_singleton] at hbound
        omega
    rw [hlast i p hp hpx, hlast j q hq hqx]

end Step

/-- **Where the last slot serves, what is dispatched is what was received.** In every run of
such advertisements each callback is called with the opcode, the address, the group and the
parameters of the advertisement just received, a repeat within the data timeout is ignored, and
no sender has two slots. -/
theorem received_is_dispatched {cfg : Config} {pairing : Pairing} {events : List Event} {t : State}
    {trace : List (Event × Output)} (hc : (machine cfg).Meets (Served cfg) (init cfg pairing) events)
    (hr : (machine cfg).run (init cfg pairing) events = some (t, trace)) :
    (∀ x ∈ trace, Answers x) ∧ Filters trace ∧ OneSlot trace t.filter := by
  have hinv : Inv cfg trace t := (machine cfg).run_invariant (Served cfg) (Inv cfg)
    (fun _ _ _ _ _ h hc hs => inv_step h hc hs) (inv_init cfg pairing) hc hr
  exact ⟨hinv.answers, hinv.filters, hinv.layout.oneSlot⟩

def press (remote sno : UInt8) : Adv :=
  ⟨[17, 0xFF, 0x18, 0xF0, 3, 0, 1, 0, 5, sno, remote, 0, 0, 0, 0, 1, 7, 9], Nat.le_of_ble_eq_true rfl⟩

def receiver (num : Nat) (pos : 0 < num) : Config := ⟨num, pos, false, 1, 0, 0, [⟨.pair, 0, true⟩]⟩

def pairable : Pairing := ⟨true, clock 60000, 0, [(false, zeroAddr)], false, zeroAddr⟩

def oneRemote : List Event := [⟨100, press 1 1⟩, ⟨600, press 1 1⟩, ⟨700, press 1 2⟩]

theorem received_is_dispatched_ten : ∃ t trace,
    (machine (receiver 10 (Nat.succ_pos 9))).run (init (receiver 10 (Nat.succ_pos 9)) pairable) oneRemote =
      some (t, trace) ∧
    trace.map (fun x => decide (x.2 = .ignored)) = [false, true, false] ∧
    (∀ x ∈ trace, Answers x) ∧ Filters trace ∧ OneSlot trace t.filter := by
  obtain ⟨⟨t, trace⟩, hr⟩ : ∃ r, (machine (receiver 10 (Nat.succ_pos 9))).run
      (init (receiver 10 (Nat.succ_pos 9)) pairable) oneRemote = some r :=
    Option.isSome_iff_exists.mp (by decide +kernel)
  have hignored : ((machine (receiver 10 (Nat.succ_pos 9))).run (init (receiver 10 (Nat.succ_pos 9)) pairable)
      oneRemote).map (fun r => r.2.map fun x => decide (x.2 = .ignored)) = some [false, true, false] := by
    decide +kernel
  rw [hr] at hignored
  exact ⟨t, trace, hr, Option.some.inj hignored, received_is_dispatched (by decide +kernel) hr⟩

/-- **A second remote is entered in one slot and another one is returned.** The slot returned has no
advertisement in it; its length is taken for one all the same, and 239 bytes are copied into a payload of
14. In a table of one slot a second remote takes the place of the first, and a repeat of the first is
dispatched again. -/
theorem second_remote_breaks_filter :
    (∃ t trace, (machine (receiver 10 (Nat.succ_pos 9))).run (init (receiver 10 (Nat.succ_pos 9)) pairable)
        [⟨100, press 1 1⟩, ⟨200, press 2 1⟩] = some (t, trace) ∧ ¬ ∀ x ∈ trace, Answers x) ∧
    ∃ t trace, (machine (receiver 1 (Nat.succ_pos 0))).run (init (receiver 1 (Nat.succ_pos 0)) pairable)
        [⟨100, press 1 1⟩, ⟨200, press 2 1⟩, ⟨300, press 1 1⟩] = some (t, trace) ∧ ¬ Filters trace := by
  refine ⟨⟨_, _, rfl, fun h => ?_⟩, ⟨_, _, rfl, fun h => ?_⟩⟩
  · exact h (⟨200, press 2 1⟩, .fault) (mem_cons_of_mem _ (mem_singleton.mpr rfl))
  · have hlast := h [_, _] _ [] rfl ⟨100, rfl, by decide +kernel⟩
    cases hlast

end Qumios.Remoter
