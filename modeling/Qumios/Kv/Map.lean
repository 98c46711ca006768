import Qumios.Kv.Mount

/-! The store as a finite map.

A run of calls and collections, from an erased device on, is replayed on a map: a call
that reports success changes it, any other does not. What `qm_kv_get` answers is what
the map says, at every point of the run. The one thing that can go wrong without a
failing allocation is that `kv_item_calc_pos` does not come back (`Returns`). -/
namespace Qumios.Kv
open Nor Run List Option

/-! ### The map -/

abbrev Contents := Bytes → Option Bytes

/-- What a call with this outcome does to the map. -/
def Event.apply (m : Contents) : Event → Outcome → Contents
  | .set key val, .ret .ok => Function.update m key.1 (some val)
  | .del key, .ret .ok => Function.update m key.1 none
  | .delByPrefix pre, .ret .ok => fun k => if pre.1.isPrefixOf k then none else m k
  | .delAll, .ret .ok => fun _ => none
  | _, _ => m

def replay (trace : List (Event × Outcome)) : Contents := trace.foldl (fun m x => x.1.apply m x.2) fun _ => none

theorem replay_snoc (trace : List (Event × Outcome)) (e : Event) (o : Outcome) :
    replay (trace ++ [(e, o)]) = e.apply (replay trace) o := by
  rw [replay, foldl_append]
  rfl

section Step
variable {cfg : Config} {l l' : Log} {m : Contents} {e : Event} {o : Outcome}

/-- A call that returns keeps log and map together. -/
theorem Log.Stores.call (h : l.Stores cfg m) (he : e.Fine) (hcall : l.call cfg e = some (l', o)) :
    l'.Stores cfg (e.apply m o) ∧ ∀ key n, e = .get key n → o = answer n (m key.1) := by
  have hfull : Full fun _ => true := fun _ => ⟨rfl, rfl⟩
  cases e with
  | set key val =>
    refine ⟨?_, fun _ _ hget => by cases hget⟩
    rw [Log.call] at hcall
    split at hcall
    · cases hcall
      exact h
    · next hparam =>
      have hkey : 0 < key.1.length := length_pos_of_ne_nil he
      obtain ⟨⟨l1, res⟩, hset, hout⟩ := map_eq_some_iff.mp hcall
      cases hout
      have hnone (hn : l.find cfg key.1 = none) : m key.1 = none :=
        h.shows.eq_none_iff.mpr (Log.find_none h.toSound hn)
      rcases h.set ⟨hkey, by omega⟩ ⟨by omega, by omega⟩ (Log.find_genuine h.toSound key.1) hnone hset with
        ⟨rfl, hl1⟩ | ⟨rfl, hl1⟩
      · exact hl1
      · exact hl1
  | get key bufferLen =>
    cases hcall
    refine ⟨h, fun key' n hget => ?_⟩
    cases hget
    rw [h.find]
  | del key =>
    refine ⟨?_, fun _ _ hget => by cases hget⟩
    cases hcall
    rcases h.del (Log.find_genuine h.toSound key.1) with ⟨-, hdel⟩ | ⟨hok, hdel⟩
    · rw [hdel]
      exact h
    · rw [hok]
      exact hdel
  | delByPrefix pre =>
    refine ⟨?_, fun _ _ hget => by cases hget⟩
    obtain ⟨l1, -, hkills, hr⟩ := Log.kvDelByPrefix_conc (fun _ => true) pre.2 h.toRunning
    obtain ⟨rfl, hclear⟩ := hr hfull
    cases hcall
    exact h.killed hkills hclear
  | delAll =>
    refine ⟨?_, fun _ _ hget => by cases hget⟩
    obtain ⟨l1, -, hkills, hr⟩ := Log.kvDelAll_conc (fun _ => true) h.toRunning
    obtain ⟨rfl, hclear⟩ := hr hfull
    cases hcall
    exact h.killed (q := fun _ => true) hkills hclear
  | gc =>
    refine ⟨?_, fun _ _ hget => by cases hget⟩
    cases hcall
    exact h.collect

end Step

/-! ### Returning -/

variable {j len n : Nat} {s : State} {cfg : Config} {l : Log} {e : Event} {trace : List (Event × Outcome)}

variable {blkIndex rounds : Nat} {events : List Event}

/-- The loop of `kv_item_calc_pos` ends at a block with room: it comes to a block `i` that
lies ahead. -/
theorem searchLoop_ahead {i : Nat} (hroom : len < (s.info i).space) (hi : i < n) (hj : j ≤ i)
    (hrounds : i - j < rounds) : (searchLoop n s blkIndex len rounds j).isSome := by
  induction rounds generalizing j with
  | zero => omega
  | succ rounds ih =>
    have hne : ¬ j = n := by omega
    simp only [searchLoop, if_neg hne]
    split
    · rfl
    · split
      · rfl
      · next hfull =>
        have hlt : j ≠ i := fun h => hfull (h ▸ hroom)
        exact ih (by omega) (by omega)

/-- Behind the last block the loop comes to the block it started from, unless that is
the first. -/
theorem searchLoop_around (hj : 1 ≤ j) (hle : j ≤ blkIndex) (hblk : blkIndex < n) (hrounds : blkIndex - j < rounds) :
    (searchLoop n s blkIndex len rounds j).isSome := by
  induction rounds generalizing j with
  | zero => omega
  | succ rounds ih =>
    have hne : ¬ j = n := by omega
    simp only [searchLoop, if_neg hne]
    split
    · rfl
    · next hneq =>
      split
      · rfl
      · exact ih (by omega) (by omega) (by omega)

theorem searchLoop_over (hblk : 0 < blkIndex) (hlt : blkIndex < j) (hj : j ≤ n)
    (hrounds : n - j + blkIndex < rounds) : (searchLoop n s blkIndex len rounds j).isSome := by
  induction rounds generalizing j with
  | zero => omega
  | succ rounds ih =>
    have hne : ¬ j = blkIndex := by omega
    simp only [searchLoop, if_neg hne]
    by_cases hwrap : j = n
    · rw [if_pos hwrap]
      split
      · rfl
      · exact searchLoop_around (by omega) (by omega) (by omega) (by omega)
    · rw [if_neg hwrap]
      split
      · rfl
      · exact ih (by omega) (by omega) (by omega)

/-- From the first block on, with no room anywhere, the loop goes on for ever. -/
theorem searchLoop_endless (hn : 2 ≤ n) (hfull : ∀ i < n, (s.info i).space ≤ len) (rounds : Nat) (hj : 1 ≤ j)
    (hle : j ≤ n) : searchLoop n s 0 len rounds j = none := by
  induction rounds generalizing j with
  | zero => rfl
  | succ rounds ih =>
    have hne : ¬ j = 0 := by omega
    simp only [searchLoop, if_neg hne]
    by_cases hwrap : j = n
    · have h0 := hfull 0 (by omega)
      rw [if_pos hwrap, if_neg (by omega)]
      exact ih (by omega) (by omega)
    · have hspace := hfull j (by omega)
      rw [if_neg hwrap, if_neg (by omega)]
      exact ih (by omega) (by omega)

/-- When `qm_kv_set` comes back: with three blocks or more, not while the first block is
written to and no block has room for the item. -/
def Returns (cfg : Config) (s : State) : Event → Prop
  | .set key val =>
    cfg.blkNums = 2 ∨ s.writePos / blkSize ≠ 0 ∨
      ∃ i < cfg.blkNums, itemLen cfg key.1.length val.length < (s.info i).space
  | _ => True

instance (cfg : Config) (s : State) : DecidablePred (Returns cfg s)
  | .set _ _ => inferInstanceAs (Decidable (_ ∨ _ ∨ ∃ i < cfg.blkNums, _))
  | .get .. | .del _ | .delByPrefix _ | .delAll | .gc => isTrue trivial

theorem place_isSome (hl : l.Running cfg)
    (h : cfg.blkNums = 2 ∨ l.cur ≠ 0 ∨ ∃ i < cfg.blkNums, len < ((l.conc cfg).info i).space) :
    (l.place cfg len).isSome := by
  have hinside := hl.inside
  rw [Log.place]
  split
  · rfl
  · next hfull =>
    split
    · next hmany =>
      have hsearch : (searchLoop cfg.blkNums (l.conc cfg) l.cur len (cfg.blkNums + 1) (l.cur + 1)).isSome := by
        by_cases hzero : l.cur = 0
        · rcases h with htwo | hne | ⟨i, hi, hroom⟩
          · simp only [kvGcReserved] at hmany
            omega
          · exact absurd hzero hne
          · have hpos : i ≠ 0 := fun h0 => hfull (by rw [hzero, ← h0]; exact hroom)
            exact searchLoop_ahead hroom hi (by omega) (by omega)
        · exact searchLoop_over (by omega) (by omega) (by omega) (by omega)
      split
      · next hnone =>
        rw [hnone] at hsearch
        cases hsearch
      · rfl
      · split <;> rfl
    · rfl

/-- A set comes back if its `kv_item_calc_pos` does. -/
theorem setAt_isSome {key val : Bytes} {r : Option (Nat × List Entry × Entry × List Entry)}
    (h : (l.place cfg (itemLen cfg key.length val.length)).isSome) : (l.setAt cfg key val r).isSome := by
  have hstore (origin : Nat) : (l.store cfg ⟨true, key, val, origin⟩).isSome := by
    rw [Log.store, show (⟨true, key, val, origin⟩ : Entry).size cfg = itemLen cfg key.length val.length from rfl]
    split
    · next hnone =>
      rw [hnone] at h
      cases h
    · rfl
    · rfl
  cases r with
  | none => exact hstore 0
  | some x =>
    rw [Log.setAt]
    split
    · rfl
    · split
      · rfl
      · exact hstore _

theorem call_isSome (hl : l.Running cfg) (h : Returns cfg (l.conc cfg) e) : (l.call cfg e).isSome := by
  cases e with
  | set key val =>
    rw [Log.call]
    split
    · rfl
    · rw [isSome_map]
      obtain ⟨hat, hb, -⟩ := hl.at hl.inside
      rw [Returns, Log.writePos_div hat hb.fill] at h
      exact setAt_isSome (place_isSome hl h)
  | get | del | delByPrefix | delAll | gc => rfl

/-! ### Runs -/

def Answered (trace : List (Event × Outcome)) : Prop :=
  ∀ past key bufferLen o rest, trace = past ++ (.get key bufferLen, o) :: rest → o = answer bufferLen (replay past key.1)

theorem Answered.snoc {o : Outcome} (h : Answered trace)
    (hget : ∀ key n, e = .get key n → o = answer n (replay trace key.1)) : Answered (trace ++ [(e, o)]) := by
  intro past key bufferLen o' rest hsplit
  obtain ⟨rfl, hlast, rfl⟩ | ⟨front, rfl, hfront⟩ := split_snoc hsplit
  · cases hlast
    exact hget key bufferLen rfl
  · exact h past key bufferLen o' front hfront

def Follows (cfg : Config) (trace : List (Event × Outcome)) (s : State) : Prop :=
  Answered trace ∧ ∃ l : Log, s = l.conc cfg ∧ l.Stores cfg (replay trace)

theorem mount_follows (hsmall : cfg.blkNums ≤ 15) : Follows cfg [] (kvMount cfg (fun _ => true) erased) := by
  obtain ⟨images, hmount⟩ := kvMount_erased cfg (fun _ => true) hsmall
  refine ⟨fun past _ _ _ _ h => ?_, Log.boot cfg images, hmount, Log.boot_stores hsmall images⟩
  simp at h

theorem Follows.step {s' : State} {o : Outcome} (h : Follows cfg trace s) (he : e.Fine)
    (hstep : (machine cfg).step s e = some (s', o)) : Follows cfg (trace ++ [(e, o)]) s' := by
  obtain ⟨hanswered, l, rfl, hl⟩ := h
  have hexec : exec cfg (fun _ => true) (l.conc cfg) e = some (s', o) := hstep
  rw [exec_conc hl.toRunning he] at hexec
  obtain ⟨⟨l', o'⟩, hcall, hout⟩ := map_eq_some_iff.mp hexec
  cases hout
  obtain ⟨hl', hget⟩ := (hl.forget []).call he hcall
  refine ⟨hanswered.snoc hget, l', rfl, ?_⟩
  rw [replay_snoc]
  exact hl'

theorem Follows.enabled (h : Follows cfg trace s) (he : e.Fine) (hreturns : Returns cfg s e) :
    ∃ s' o, (machine cfg).step s e = some (s', o) := by
  obtain ⟨-, l, rfl, hl⟩ := h
  have hsome : (({ l with images := [] } : Log).call cfg e).isSome := call_isSome (hl.toRunning.forget []) hreturns
  obtain ⟨⟨l', o⟩, hcall⟩ := isSome_iff_exists.mp hsome
  refine ⟨l'.conc cfg, o, ?_⟩
  have hexec := exec_conc hl.toRunning he
  rw [Log.exec, hcall] at hexec
  exact hexec

/-- **The store is a map.** From an erased device on, a run of calls with keys that are
not empty and of collections, none of which meets the endless loop, comes to its end.
The store then holds what the replay of the run says, and so did every get on the way;
a call that reported an error changes nothing in the replay. -/
theorem store_refines_map (cfg : Config) (hsmall : cfg.blkNums ≤ 15) (events : List Event)
    (h : (machine cfg).Meets (fun s e => e.Fine ∧ Returns cfg s e) (kvMount cfg (fun _ => true) erased) events) :
    ∃ t trace, (machine cfg).run (kvMount cfg (fun _ => true) erased) events = some (t, trace) ∧
      contents cfg t = replay trace ∧ Answered trace := by
  obtain ⟨t, trace, hrun, hanswered, l, rfl, hl⟩ := (machine cfg).run_total _ (Follows cfg)
    (fun past s e hf hc => by
      obtain ⟨s', o, hstep⟩ := hf.enabled hc.1 hc.2
      exact ⟨s', o, hstep, hf.step hc.1 hstep⟩) (mount_follows hsmall) h
  exact ⟨_, trace, hrun, hl.contents, hanswered⟩

def Config.three : Config := ⟨3, 4, by decide, .inl rfl⟩

/-- A key is set, changed, read into a buffer that is too small and one that is not, and
deleted. -/
theorem store_refines_map_one_key :
    ∃ t trace, (machine .three).run (kvMount .three (fun _ => true) erased)
        [.set ⟨[107], by decide⟩ [1], .set ⟨[107], by decide⟩ [2, 3], .get ⟨[107], by decide⟩ 1,
          .get ⟨[107], by decide⟩ 2, .del ⟨[107], by decide⟩] = some (t, trace) ∧
      contents .three t = replay trace ∧ Answered trace :=
  store_refines_map .three (by decide) _ (by decide +kernel)

/-! #### The endless loop -/

def Log.machine (cfg : Config) : Machine Log Event Outcome where
  step := Log.exec cfg

/-- A run on the state of a log is the run on the log. -/
theorem run_conc {m : Contents} (h : l.Stores cfg m) (hfine : ∀ e ∈ events, e.Fine) :
    (machine cfg).run (l.conc cfg) events = ((Log.machine cfg).run l events).map fun r => (r.1.conc cfg, r.2) := by
  induction events generalizing l m with
  | nil => rfl
  | cons e rest ih =>
    have he := hfine e mem_cons_self
    have hstep : (Kv.machine cfg).step (l.conc cfg) e = (l.exec cfg e).map (Log.concOut cfg) := exec_conc h.toRunning he
    rw [Machine.run, Machine.run, hstep, show (Log.machine cfg).step l e = l.exec cfg e from rfl]
    cases hexec : l.exec cfg e with
    | none => rfl
    | some r =>
      obtain ⟨l', o⟩ := r
      have hl' := ((h.forget []).call he hexec).1
      have hrest := ih hl' fun x hx => hfine x (mem_cons_of_mem e hx)
      simp only [map_some, Log.concOut, hrest]
      cases (Log.machine cfg).run l' rest <;> rfl

theorem Log.run_stores (hsmall : cfg.blkNums ≤ 15) {images : List (List Blk)} (hfine : ∀ e ∈ events, e.Fine)
    (h : (Log.machine cfg).run (Log.boot cfg images) events = some (l, trace)) : l.Stores cfg (replay trace) := by
  refine (Log.machine cfg).run_invariant (fun _ e => e.Fine ∧ True) (fun past l => l.Stores cfg (replay past))
    (fun past l e l' o hl he hstep => ?_) (Log.boot_stores hsmall images)
    ((Log.machine cfg).meets_and hfine ((Log.machine cfg).meets_true _ _)) h
  rw [replay_snoc]
  exact ((hl.forget []).call he.1 hstep).1

theorem run_boot (cfg : Config) (hsmall : cfg.blkNums ≤ 15) (events : List Event) (hne : events ≠ [])
    (hfine : ∀ e ∈ events, e.Fine) :
    (machine cfg).run (kvMount cfg (fun _ => true) erased) events =
      ((Log.machine cfg).run (Log.boot cfg []) events).map fun r => (r.1.conc cfg, r.2) := by
  obtain ⟨images, hmount⟩ := kvMount_erased cfg (fun _ => true) hsmall
  rw [hmount, run_conc (Log.boot_stores hsmall images) hfine]
  cases events with
  | nil => exact absurd rfl hne
  | cons e rest => rfl

def longKey (c : UInt8) (hc : c ≠ 0) : CString :=
  ⟨c :: List.replicate 127 1, by simp [hc.symm]⟩

def longSet (c : UInt8) (hc : c ≠ 0) : Event := .set (longKey c hc) (List.replicate 768 0)

/-- The first two blocks are filled, the first is collected into the third, and it comes
to be written to again until nothing is free. -/
def filling : List Event :=
  [longSet 1 (by decide), longSet 2 (by decide), longSet 3 (by decide), longSet 4 (by decide), longSet 5 (by decide),
    longSet 6 (by decide), longSet 7 (by decide), longSet 8 (by decide), .del (longKey 1 (by decide)), .gc,
    longSet 9 (by decide), .gc, longSet 10 (by decide), longSet 11 (by decide), longSet 12 (by decide),
    longSet 13 (by decide), .gc]

theorem filling_log : ((Log.machine .three).run (Log.boot .three []) filling).map
    (fun r => (r.1.cur, r.1.blocks.map (Blk.fill .three))) = some (0, [3620, 3620, 3620]) := by
  decide +kernel

theorem overfilling_log :
    ((Log.machine .three).run (Log.boot .three []) (filling ++ [longSet 14 (by decide)])).isNone = true := by
  decide +kernel

theorem overfilling_fine : ∀ e ∈ filling ++ [longSet 14 (by decide)], e.Fine := by
  decide +kernel

theorem filling_runs : ∃ t trace,
    (machine .three).run (kvMount .three (fun _ => true) erased) filling = some (t, trace) ∧
      t.writePos / blkSize = 0 ∧ ∀ i < 3, (t.info i).space = 476 := by
  have hrun := run_boot .three (by decide) filling (cons_ne_nil _ _)
    fun e he => overfilling_fine e (mem_append_left _ he)
  obtain ⟨⟨l, trace⟩, hlog, hview⟩ := map_eq_some_iff.mp filling_log
  rw [hlog] at hrun
  obtain ⟨hcur, hfills⟩ := Prod.mk.inj hview
  have hblock (i : Nat) (hi : i < 3) : ∃ b, l.blocks[i]? = some b ∧ b.fill .three = 3620 := by
    have hat : (l.blocks.map (Blk.fill .three))[i]? = some 3620 := by
      rw [hfills]
      interval_cases i <;> rfl
    rw [getElem?_map] at hat
    exact map_eq_some_iff.mp hat
  refine ⟨l.conc .three, trace, hrun, ?_, fun i hi => ?_⟩
  · obtain ⟨b, hb, hfill⟩ := hblock 0 (by decide)
    rw [← hcur] at hb
    rw [Log.writePos_div hb (by rw [hfill]; decide), hcur]
  · obtain ⟨b, hb, hfill⟩ := hblock i hi
    rw [Log.conc_info hb, Blk.info, hfill]
    rfl

/-- The loop of `kv_item_calc_pos` from the first block, with nothing free: however
often it goes around, it has not ended. So the last of these calls never returns, and
nothing can be read from the store any more. -/
theorem endless_set_in_full_store :
    ∃ t trace, (machine .three).run (kvMount .three (fun _ => true) erased) filling = some (t, trace) ∧
      (∀ rounds, searchLoop 3 t (t.writePos / blkSize) (itemLen .three 128 768) rounds (t.writePos / blkSize + 1) = none) ∧
      (machine .three).run (kvMount .three (fun _ => true) erased) (filling ++ [longSet 14 (by decide)]) = none := by
  have hover := run_boot .three (by decide) _ (append_ne_nil_of_right_ne_nil filling (cons_ne_nil _ _))
    overfilling_fine
  rw [isNone_iff_eq_none.mp overfilling_log] at hover
  obtain ⟨t, trace, hrun, hdiv, hinfo⟩ := filling_runs
  refine ⟨t, trace, hrun, fun rounds => ?_, hover⟩
  rw [hdiv]
  exact searchLoop_endless (by decide) (fun i hi => by rw [hinfo i hi]; decide) rounds (by decide) (by decide)

end Qumios.Kv
