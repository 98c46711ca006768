import Qumios.Kv.Map

/-! The store when allocations fail.

Every step comes with what the allocator answers in it. A search that an allocation
cuts short looks to its caller like a search that finds nothing, and a collection that
is cut short erases its block all the same: a set of a key that is there, and a
collection, need their memory. Everything else is safe. -/
namespace Qumios.Kv
open Nor Run List

/-! ### The list command -/

namespace Log
variable {cfg : Config} {l : Log} {i : Nat} {before after : List Entry} {e : Entry}

def printing (cfg : Config) (l : Log) (printed : List (Bytes × Bytes)) : State := { l.conc cfg with printed := printed }

def binding (e : Entry) : Bytes × Bytes := (e.key, e.value)

theorem itemPrintCb_entry {b : Blk} (h : l.blocks[i]? = some b) (hb : b.Sound cfg)
    (hsplit : b.entries = before ++ e :: after) (printed : List (Bytes × Bytes)) :
    itemPrintCb ⟨e.hdr, posOf cfg i before, e.key.length + e.value.length, []⟩ (l.printing cfg printed) =
      (l.printing cfg (printed ++ [binding e]), .cont) := by
  have hkey : read (l.printing cfg printed).flash (posOf cfg i before + itemHeaderSize) e.hdr.keyLen = e.key :=
    read_key h hb.mark hsplit hb.fill
  have hval : read (l.printing cfg printed).flash (posOf cfg i before + itemHeaderSize + e.hdr.keyLen) e.hdr.valLen =
      e.value := read_value h hb.mark hsplit hb.fill
  rw [itemPrintCb, hkey, hval]
  rfl

theorem list_visits (hl : l.Sound cfg) (hi : i < cfg.blkNums) (hsplit : (l.blk i).entries = before ++ after)
    (printed : List (Bytes × Bytes)) :
    Visits cfg (fun _ => true) itemPrintCb i (posOf cfg i before) (l.printing cfg printed)
      (l.printing cfg (printed ++ (after.filter (·.live)).map binding), none) := by
  obtain ⟨hat, hb, hi15⟩ := hl.at hi
  induction after generalizing before printed with
  | nil =>
    rw [append_nil] at hsplit
    subst hsplit
    have hend : Visits cfg (fun _ => true) itemPrintCb i (posOf cfg i (l.blk i).entries) (l.printing cfg printed)
        (noteSpace (l.printing cfg printed) i (posOf cfg i (l.blk i).entries), none) :=
      Visits.end rfl hat hb fun _ => rfl
    have hspace : noteSpace (l.printing cfg printed) i (posOf cfg i (l.blk i).entries) = l.printing cfg printed :=
      congrArg (fun s : State => { s with printed := printed }) (noteSpace_conc hi15 hat hb)
    rw [hspace] at hend
    simpa using hend
  | cons e rest ih =>
    have hmore : (l.blk i).entries = (before ++ [e]) ++ rest := by rw [hsplit, append_assoc]; rfl
    cases hlive : e.live with
    | false =>
      have hdirty : noteDirty (l.printing cfg printed) i = l.printing cfg printed := by
        have hinfo : (l.printing cfg printed).info i = (l.blk i).info cfg := conc_info hat
        rw [noteDirty, hinfo, if_neg]
        exact fun hused => hl.unused hat hsplit hlive (Mark.byte_eq_used.mp hused)
      refine Visits.dead hi15 rfl hat hb hsplit rfl hlive ?_
      rw [hdirty, filter_cons_of_neg (by simp [hlive])]
      exact ih hmore printed
    | true =>
      refine Visits.cont hi15 rfl hat hb hsplit rfl hlive (itemPrintCb_entry hat hb hsplit printed) ?_
      have hrest := ih hmore (printed ++ [binding e])
      rwa [append_assoc, singleton_append, ← map_cons, ← filter_cons_of_pos hlive] at hrest

/-- The list command prints the live entries. -/
theorem kvList_conc (hl : l.Sound cfg) : kvList cfg (l.conc cfg) = l.live.map binding := by
  have hfold (is : List Nat) (his : ∀ i ∈ is, i < cfg.blkNums) (printed : List (Bytes × Bytes)) :
      is.foldl (fun s i => (kvItemTraverse cfg (fun _ => true) itemPrintCb i s).1) (l.printing cfg printed) =
        l.printing cfg (printed ++ (is.flatMap fun i => (l.blk i).live).map binding) := by
    induction is generalizing printed with
    | nil => simp
    | cons i rest ih =>
      have hi := his i mem_cons_self
      have htraverse := kvItemTraverse_eq (Nat.lt_of_lt_of_le hi hl.small)
        (list_visits hl hi (show (l.blk i).entries = [] ++ (l.blk i).entries from rfl) printed)
      rw [foldl_cons, htraverse, ih fun j hj => his j (mem_cons_of_mem i hj)]
      simp [Blk.live]
  have hblocks : (List.range cfg.blkNums).map l.blk = l.blocks := by
    rw [← hl.length]
    refine ext_getElem (by simp) fun i hi hi' => ?_
    rw [getElem_map, getElem_range]
    exact blk_eq (getElem?_eq_getElem hi')
  have hflat : ((List.range cfg.blkNums).flatMap fun i => (l.blk i).live) = l.live := by
    rw [live, liveOf, ← hblocks, flatMap_map]
  have hall := hfold (List.range cfg.blkNums) (fun _ hi => mem_range.mp hi) []
  rw [hflat, nil_append] at hall
  exact congrArg State.printed hall

end Log

/-! ### Steps with failing allocations -/

/-- The value a call asks for. -/
def Event.Requests (key : Bytes) : Event → Option Bytes → Prop
  | .set k val, v => key = k.1 ∧ v = some val
  | .del k, v => key = k.1 ∧ v = none
  | .delByPrefix pre, v => pre.1.isPrefixOf key = true ∧ v = none
  | .delAll, v => v = none
  | .get .., _ => False
  | .gc, _ => False

def Event.Between (e : Event) (m m' : Contents) : Prop := ∀ key, m' key = m key ∨ e.Requests key (m' key)

def allocMachine (cfg : Config) : Machine State (Event × Mem) Outcome where
  step s e := exec cfg e.2 s e.1

/-- What a step needs of the allocator: a set of a key that is there, and a collection,
the memory of their traversals. -/
def Event.Needs (m : Contents) (mem : Mem) : Event → Prop
  | .set key _ => m key.1 = none ∨ Full mem
  | .gc => Full mem
  | _ => True

def Spared (cfg : Config) (s : State) (e : Event × Mem) : Prop := e.1.Fine ∧ e.1.Needs (contents cfg s) e.2

section Step
variable {cfg : Config} {l : Log} {m : Contents} {e : Event} {mem : Mem} {s' : State} {o : Outcome}

/-- Such a step leads from a log to a log, with the map changed where it may be. -/
theorem Log.Stores.call_alloc (h : l.Stores cfg m) (hfine : e.Fine) (hneeds : e.Needs m mem)
    (hcall : Kv.call cfg mem (l.conc cfg) e = some (s', o)) :
    ∃ (l' : Log) (m' : Contents), s' = l'.conc cfg ∧ l'.Stores cfg m' ∧ e.Between m m' := by
  have hsame : e.Between m m := fun key => .inl rfl
  cases e with
  | set key val =>
    obtain ⟨⟨s1, res⟩, hset, hout⟩ := Option.map_eq_some_iff.mp hcall
    cases hout
    by_cases hparam : val.length = 0 ∨ key.1.length > itemMaxKeyLen ∨ val.length > itemMaxValLen
    · rw [kvSet, if_pos hparam] at hset
      cases hset
      exact ⟨l, m, rfl, h, hsame⟩
    · have hkey : 0 < key.1.length := length_pos_of_ne_nil hfine
      have hkey' : 0 < key.1.length ∧ key.1.length ≤ itemMaxKeyLen := by omega
      have hval : 0 < val.length ∧ val.length ≤ itemMaxValLen := by omega
      obtain ⟨r, hr, hfull, hdone | ⟨-, hrefused⟩⟩ := Log.kvSet_conc mem h.toRunning hkey' hval
      · rw [hdone] at hset
        obtain ⟨⟨l1, res1⟩, hset1, hout⟩ := Option.map_eq_some_iff.mp hset
        cases hout
        have hnone (hn : r = none) : m key.1 = none := by
          rcases hneeds with habsent | hmem
          · exact habsent
          · rw [hfull hmem] at hn
            exact h.shows.eq_none_iff.mpr (Log.find_none h.toSound hn)
        rcases h.set hkey' hval hr hnone hset1 with ⟨-, hl1⟩ | ⟨-, hl1⟩
        · exact ⟨l1, m, rfl, hl1, hsame⟩
        · exact ⟨l1, _, rfl, hl1, update_cases m key.1 (some val)⟩
      · rw [hrefused] at hset
        cases hset
        exact ⟨l, m, rfl, h, hsame⟩
  | get key bufferLen =>
    obtain ⟨r, -, -, hget⟩ := Log.kvGet_conc mem key.1 bufferLen h.toSound
    rw [Kv.call, hget] at hcall
    cases hcall
    exact ⟨l, m, rfl, h, hsame⟩
  | del key =>
    obtain ⟨r, hr, -, hdel⟩ := Log.kvDel_conc mem key.1 h.toSound
    rw [Kv.call, hdel] at hcall
    cases hcall
    rcases h.del hr with ⟨-, hno⟩ | ⟨-, hl1⟩
    · rw [hno]
      exact ⟨l, m, rfl, h, hsame⟩
    · exact ⟨_, _, rfl, hl1, update_cases m key.1 none⟩
  | delByPrefix pre =>
    obtain ⟨l1, hdel, hkills, -⟩ := Log.kvDelByPrefix_conc mem pre.2 h.toRunning
    rw [Kv.call, hdel] at hcall
    cases hcall
    obtain ⟨m', hl1, hkeep⟩ := h.kills (q := fun k => pre.1.isPrefixOf k) hkills
    exact ⟨l1, m', rfl, hl1, hkeep⟩
  | delAll =>
    obtain ⟨l1, hdel, hkills, -⟩ := Log.kvDelAll_conc mem h.toRunning
    rw [Kv.call, hdel] at hcall
    cases hcall
    obtain ⟨m', hl1, hkeep⟩ := h.kills (q := fun _ => true) hkills
    exact ⟨l1, m', rfl, hl1, fun k => (hkeep k).imp_right And.right⟩
  | gc =>
    rw [Kv.call, Log.kvGc_conc hneeds h.toRunning] at hcall
    cases hcall
    exact ⟨_, m, rfl, h.collect, hsame⟩

end Step

def Sane (cfg : Config) (s : State) : Prop := ∃ (l : Log) (m : Contents), s = l.conc cfg ∧ l.Stores cfg m

theorem Sane.step {cfg : Config} {s s' : State} {e : Event} {mem : Mem} {o : Outcome} (h : Sane cfg s)
    (hs : Spared cfg s (e, mem)) (hstep : exec cfg mem s e = some (s', o)) :
    Sane cfg s' ∧ e.Between (contents cfg s) (contents cfg s') := by
  obtain ⟨l, m, rfl, hl⟩ := h
  have hneeds := hs.2
  rw [hl.contents] at hneeds
  obtain ⟨l', m', rfl, hl', hbetween⟩ := (hl.forget []).call_alloc hs.1 hneeds hstep
  refine ⟨⟨l', m', rfl, hl'⟩, ?_⟩
  rw [hl.contents, hl'.contents]
  exact hbetween

theorem Sane.nodup {cfg : Config} {s : State} (h : Sane cfg s) : ((kvList cfg s).map Prod.fst).Nodup := by
  obtain ⟨l, m, rfl, hl⟩ := h
  rw [Log.kvList_conc hl.toSound, map_map]
  exact hl.shows.keys

/-- **Failing allocations.** From an erased device on, in every run in which a set of a
key that is there and a collection get the memory of their traversals, each further such
step leaves every key with the value it had or the one the step asks for, and no key
twice. -/
theorem values_survive_failing_allocations (cfg : Config) (hsmall : cfg.blkNums ≤ 15) (steps : List (Event × Mem))
    (s : State) (trace : List ((Event × Mem) × Outcome))
    (hmeets : (allocMachine cfg).Meets (Spared cfg) (kvMount cfg (fun _ => true) erased) steps)
    (hrun : (allocMachine cfg).run (kvMount cfg (fun _ => true) erased) steps = some (s, trace))
    (e : Event) (mem : Mem) (s' : State) (o : Outcome) (hnext : Spared cfg s (e, mem))
    (hstep : exec cfg mem s e = some (s', o)) :
    e.Between (contents cfg s) (contents cfg s') ∧ ((kvList cfg s').map Prod.fst).Nodup := by
  obtain ⟨images, hmount⟩ := kvMount_erased cfg (fun _ => true) hsmall
  have hstart : Sane cfg (kvMount cfg (fun _ => true) erased) :=
    ⟨Log.boot cfg images, _, hmount, Log.boot_stores hsmall images⟩
  have hs : Sane cfg s := (allocMachine cfg).run_invariant (Spared cfg) (fun _ => Sane cfg)
    (fun _ _ _ _ _ hsane hc hstep => (hsane.step hc hstep).1) hstart hmeets hrun
  obtain ⟨hsane, hbetween⟩ := hs.step hnext hstep
  exact ⟨hbetween, hsane.nodup⟩

/-- A key is set, and a delete without any memory is told that it is not there. -/
theorem values_survive_failing_allocations_del :
    ∃ s trace, (allocMachine .three).run (kvMount .three (fun _ => true) erased)
        [(.set ⟨[107], by decide⟩ [1], fun _ => true)] = some (s, trace) ∧
      (Event.del ⟨[107], by decide⟩).Between (contents .three s) (contents .three (kvDel .three (fun _ => false) [107]
        { s with images := [] }).1) ∧
      ((kvList .three (kvDel .three (fun _ => false) [107] { s with images := [] }).1).map Prod.fst).Nodup := by
  have hrun : ((allocMachine .three).run (kvMount .three (fun _ => true) erased)
      [(.set ⟨[107], by decide⟩ [1], fun _ => true)]).isSome = true := by decide +kernel
  obtain ⟨⟨s, trace⟩, hrun⟩ := Option.isSome_iff_exists.mp hrun
  have hset : (Event.set ⟨[107], by decide⟩ [1]).Fine := by decide
  have hmeets : (allocMachine .three).Meets (Spared .three) (kvMount .three (fun _ => true) erased)
      [(.set ⟨[107], by decide⟩ [1], fun _ => true)] :=
    ⟨⟨hset, .inr fun _ => ⟨rfl, rfl⟩⟩, fun _ _ _ => trivial⟩
  exact ⟨s, trace, hrun, values_survive_failing_allocations .three (by decide) _ s trace hmeets hrun
    (.del ⟨[107], by decide⟩) (fun _ => false) _ _ ⟨trivial, trivial⟩ rfl⟩

/-- A set whose search fails for lack of memory leaves the key twice; and a collection
whose traversal does loses what it has not copied. -/
theorem key_twice_and_key_lost :
    ((allocMachine .three).run (kvMount .three (fun _ => true) erased)
        [(.set ⟨[107], by decide⟩ [1], fun _ => true), (.set ⟨[107], by decide⟩ [2], fun a => a ≠ .item 4)]).map
      (fun r => kvList .three r.1) = some [([107], [1]), ([107], [2])] ∧
    ((allocMachine .three).run (kvMount .three (fun _ => true) erased)
        [(.set ⟨[107], by decide⟩ [1], fun _ => true), (.set ⟨[107], by decide⟩ [2], fun _ => true)]).map
      (fun r => contents .three r.1 [107]) = some (some [2]) ∧
    ((allocMachine .three).run (kvMount .three (fun _ => true) erased)
        [(.set ⟨[107], by decide⟩ [1], fun _ => true), (.set ⟨[107], by decide⟩ [2], fun _ => true),
          (.gc, fun a => a ≠ .item 16)]).map (fun r => contents .three r.1 [107]) = some none := by
  refine ⟨?_, ?_, ?_⟩ <;> decide +kernel

end Qumios.Kv
