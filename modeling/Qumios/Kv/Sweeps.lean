import Qumios.Kv.Calls

/-! The traversals that change the store, on a laid-out log: deleting by prefix,
deleting everything, and collecting.

`exec_conc` is the simulation: without failing allocations a call takes the state of
a log to the state of the log that `Log.exec` gives. -/
namespace Qumios.Kv
open Nor List

namespace Log
variable {cfg : Config} {l l' l'' : Log} {i g : Nat} {before after done rest : List Entry} {e : Entry}
  {p : Entry → Bool} {mem : Mem} {func : Item → State → State × Verdict}

/-! ### Deleting many -/

/-- Deletions of live entries with a property, one after the other. -/
inductive Kills (p : Entry → Bool) : Log → Log → Prop
  | refl (l : Log) : Kills p l l
  | step {l l' : Log} {i : Nat} {before after : List Entry} {e : Entry} : Kills p l l' → l'.At i before e after →
      e.live = true → p e = true → Kills p l (l'.kill i before e after)

theorem Kills.trans (h : Kills p l l') (h' : Kills p l' l'') : Kills p l l'' := by
  induction h' with
  | refl => exact h
  | step _ hat hlive hp ih => exact .step ih hat hlive hp

theorem Kills.running (h : Kills p l l') (hl : l.Running cfg) : l'.Running cfg := by
  induction h with
  | refl => exact hl
  | step _ hat _ _ ih => exact ih.kill hat

/-- No live entry of block `i` has the property. -/
def Clear (p : Entry → Bool) (i : Nat) (l : Log) : Prop := ∀ e ∈ (l.blk i).entries, e.live = true → p e = false

theorem Kills.clear (h : Kills p l l') (hc : Clear p i l) : Clear p i l' := by
  induction h with
  | refl => exact hc
  | @step l' j before after e _ hat _ _ ih =>
    by_cases hj : j = i
    · subst hj
      rw [Clear, kill_blk hat.block]
      exact forall_kill hat.split ih fun _ hlive => by cases hlive
    · rw [Clear, kill_blk_ne hj]
      exact ih

/-- A callback that deletes the entries with a property, or fails for lack of memory. -/
def Deletes (cfg : Config) (mem : Mem) (p : Entry → Bool) (func : Item → State → State × Verdict) : Prop :=
  ∀ (l : Log) (i : Nat) (before : List Entry) (e : Entry) (after : List Entry), l.Running cfg → l.At i before e after →
    e.live = true →
    func ⟨e.hdr, posOf cfg i before, e.key.length + e.value.length, []⟩ (l.conc cfg) =
        (if p e then (l.kill i before e after).conc cfg else l.conc cfg, .cont) ∨
      func ⟨e.hdr, posOf cfg i before, e.key.length + e.value.length, []⟩ (l.conc cfg) = (l.conc cfg, .failed) ∧ ¬ Full mem

theorem kill_front (h : l.At i done e rest) :
    ((l.kill i done e rest).blk i).entries = (done ++ [e.dead]) ++ rest := by
  rw [kill_blk h.block]
  simp

/-- A traversal with such a callback. -/
theorem kill_visits (hfunc : Deletes cfg mem p func) (hl : l.Running cfg) (hi : i < cfg.blkNums)
    (hsplit : (l.blk i).entries = done ++ rest) (hdone : ∀ e ∈ done, e.live = true → p e = false) :
    ∃ l', Visits cfg mem func i (posOf cfg i done) (l.conc cfg) (l'.conc cfg, none) ∧ Kills p l l' ∧
      (Full mem → l' = killFrom p i done rest l ∧ Clear p i l') := by
  induction rest generalizing done l with
  | nil =>
    obtain ⟨hat, hb, hi15⟩ := hl.at hi
    rw [append_nil] at hsplit
    subst hsplit
    exact ⟨l, end_visits hi15 hat hb, .refl l, fun _ => ⟨rfl, hdone⟩⟩
  | cons e rest ih =>
    obtain ⟨hat, hb, hi15⟩ := hl.at hi
    have hplace : l.At i done e rest := ⟨by rw [hl.length]; exact hi, hsplit⟩
    have hmore : (l.blk i).entries = (done ++ [e]) ++ rest := by rw [hsplit, append_assoc]; rfl
    have hdone' (x : Entry) (hx : x.live = true → p x = false) :
        ∀ y ∈ done ++ [x], y.live = true → p y = false := by
      exact Run.forall_snoc hdone hx
    cases hmem : mem (.item (posOf cfg i done)) with
    | false =>
      refine ⟨l, Visits.noMem (entry_room hb hsplit) hmem, .refl l, fun hfull => ?_⟩
      rw [(hfull _).1] at hmem
      cases hmem
    | true =>
      cases hlive : e.live with
      | false =>
        obtain ⟨l', hvisits, hkills, hfull⟩ := ih hl hmore (hdone' e fun h => by rw [hlive] at h; cases h)
        refine ⟨l', dead_visits hl.toSound hi hsplit hmem hlive hvisits, hkills, fun hm => ⟨?_, (hfull hm).2⟩⟩
        rw [(hfull hm).1, killFrom, hlive]
        rfl
      | true =>
        rcases hfunc l i done e rest hl hplace hlive with hcont | ⟨hfailed, hnot⟩
        · cases hp : p e with
          | true =>
            have hsize : posOf cfg i (done ++ [e.dead]) = posOf cfg i (done ++ [e]) := by
              rw [posOf_snoc, posOf_snoc]
              rfl
            obtain ⟨l', hvisits, hkills, hfull⟩ := ih (hl.kill hplace) (kill_front hplace)
              (hdone' e.dead fun h => by cases h)
            rw [hp, if_pos rfl] at hcont
            rw [hsize] at hvisits
            refine ⟨l', Visits.cont hi15 rfl hat hb hsplit hmem hlive hcont hvisits, ?_, fun hm => ?_⟩
            · exact (Kills.step (.refl l) hplace hlive hp).trans hkills
            · refine ⟨?_, (hfull hm).2⟩
              rw [(hfull hm).1, killFrom, hlive, hp]
              rfl
          | false =>
            obtain ⟨l', hvisits, hkills, hfull⟩ := ih hl hmore (hdone' e fun _ => hp)
            rw [hp, if_neg Bool.false_ne_true] at hcont
            refine ⟨l', Visits.cont hi15 rfl hat hb hsplit hmem hlive hcont hvisits, hkills, fun hm => ?_⟩
            refine ⟨?_, (hfull hm).2⟩
            rw [(hfull hm).1, killFrom, hlive, hp]
            rfl
        · exact ⟨l, Visits.failed hi15 rfl hat hb hsplit hmem hlive hfailed, .refl l, fun hm => absurd hm hnot⟩

/-- Such traversals of some blocks. -/
theorem forBlocks_conc (hfunc : Deletes cfg mem p func) (hl : l.Running cfg) (is : List Nat)
    (his : ∀ i ∈ is, i < cfg.blkNums) :
    ∃ l', is.foldl (fun s i => (kvItemTraverse cfg mem func i s).1) (l.conc cfg) = l'.conc cfg ∧ Kills p l l' ∧
      (Full mem → l' = is.foldl (fun l i => killFrom p i [] (l.blk i).entries l) l ∧ ∀ i ∈ is, Clear p i l') := by
  induction is generalizing l with
  | nil => exact ⟨l, rfl, .refl l, fun _ => ⟨rfl, by simp⟩⟩
  | cons i rest ih =>
    have hi := his i mem_cons_self
    have hwhole : (l.blk i).entries = [] ++ (l.blk i).entries := rfl
    obtain ⟨l1, hvisits, hkills, hfull⟩ := kill_visits hfunc hl hi hwhole (by simp)
    obtain ⟨l2, hrest, hkills', hfull'⟩ := ih (hkills.running hl) fun j hj => his j (mem_cons_of_mem i hj)
    have htraverse := kvItemTraverse_eq (Nat.lt_of_lt_of_le hi hl.small) hvisits
    refine ⟨l2, ?_, hkills.trans hkills', fun hm => ?_⟩
    · rw [foldl_cons, htraverse]
      exact hrest
    · exact ⟨by rw [foldl_cons, (hfull' hm).1, (hfull hm).1],
        forall_mem_cons.mpr ⟨hkills'.clear (hfull hm).2, (hfull' hm).2⟩⟩

/-- `strncmp` over the whole of a string without zeros. -/
theorem strncmpEq_iff {a b : Bytes} (hb : 0 ∉ b) : strncmpEq b.length a b = b.isPrefixOf a := by
  induction b generalizing a with
  | nil => rfl
  | cons x rest ih =>
    have hx : x ≠ 0 := fun h => hb (by rw [h]; exact mem_cons_self)
    have hrest : 0 ∉ rest := fun h => hb (mem_cons_of_mem x h)
    cases a with
    | nil => simp [strncmpEq, hx.symm]
    | cons y tail =>
      by_cases hxy : y = x
      · subst hxy
        simp [strncmpEq, hx, ih hrest]
      · have hyx : ¬ x = y := fun h => hxy h.symm
        simp [strncmpEq, List.isPrefixOf, hxy, hyx]

theorem prefix_deletes (mem : Mem) {pre : Bytes} (hpre : 0 ∉ pre) :
    Deletes cfg mem (fun e => pre.isPrefixOf e.key) (itemDelByPrefixCb mem pre) := by
  intro l i before e after hl hplace hlive
  obtain ⟨hat, hb, hi15⟩ := hplace.facts hl.toSound
  have hread : read (l.conc cfg).flash (posOf cfg i before + itemHeaderSize) e.key.length = e.key :=
    read_key hat hb.mark hplace.split hb.fill
  have hkill : kvItemMark (l.conc cfg) (posOf cfg i before) = (l.kill i before e after).conc cfg :=
    kill_conc hi15 hat hb hplace.split
  have hlen : e.hdr.keyLen = e.key.length := rfl
  simp only [itemDelByPrefixCb, kvItemDelSelf, hlen]
  by_cases hshort : e.key.length < pre.length
  · have hno : pre.isPrefixOf e.key = false := by
      refine Bool.eq_false_iff.mpr fun h => ?_
      have := (List.isPrefixOf_iff_prefix.mp h).length_le
      omega
    simp [hshort, hno]
  · cases hmem : mem (.buffer (posOf cfg i before)) with
    | false =>
      refine .inr ⟨by simp [hshort], fun hfull => ?_⟩
      rw [(hfull _).2] at hmem
      cases hmem
    | true =>
      rw [if_neg hshort, hread, strncmpEq_iff hpre, hkill]
      by_cases hp : pre.isPrefixOf e.key = true <;> simp [hp]

theorem deletes_all (mem : Mem) : Deletes cfg mem (fun _ => true) itemDelAllCb := by
  intro l i before e after hl hplace hlive
  obtain ⟨hat, hb, hi15⟩ := hplace.facts hl.toSound
  have hkill : kvItemMark (l.conc cfg) (posOf cfg i before) = (l.kill i before e after).conc cfg :=
    kill_conc hi15 hat hb hplace.split
  have hkey : e.hdr.keyLen > 0 := (hb.valid e (by rw [hplace.split]; simp)).key.1
  left
  rw [itemDelAllCb, if_pos hkey, kvItemDelSelf, hkill]
  rfl

theorem killWhere_conc (hfunc : Deletes cfg mem p func) (hl : l.Running cfg) :
    ∃ l', (List.range cfg.blkNums).foldl (fun s i => (kvItemTraverse cfg mem func i s).1) (l.conc cfg) = l'.conc cfg ∧
      Kills p l l' ∧ (Full mem → l' = l.killWhere cfg p ∧ ∀ i < cfg.blkNums, Clear p i l') := by
  obtain ⟨l', hfold, hkills, hfull⟩ := forBlocks_conc hfunc hl (List.range cfg.blkNums) fun _ hi => mem_range.mp hi
  exact ⟨l', hfold, hkills, fun hm => ⟨(hfull hm).1, fun i hi => (hfull hm).2 i (mem_range.mpr hi)⟩⟩

theorem kvDelByPrefix_conc (mem : Mem) {pre : Bytes} (hpre : 0 ∉ pre) (hl : l.Running cfg) :
    ∃ l', kvDelByPrefix cfg mem pre (l.conc cfg) = (l'.conc cfg, .ok) ∧ Kills (fun e => pre.isPrefixOf e.key) l l' ∧
      (Full mem → l' = l.killWhere cfg (fun e => pre.isPrefixOf e.key) ∧
        ∀ i < cfg.blkNums, Clear (fun e => pre.isPrefixOf e.key) i l') := by
  obtain ⟨l', hfold, hdone⟩ := killWhere_conc (prefix_deletes mem hpre) hl
  exact ⟨l', congrArg (fun s => (s, Res.ok)) hfold, hdone⟩

theorem kvDelAll_conc (mem : Mem) (hl : l.Running cfg) :
    ∃ l', kvDelAll cfg mem (l.conc cfg) = (l'.conc cfg, .ok) ∧ Kills (fun _ => true) l l' ∧
      (Full mem → l' = l.killWhere cfg (fun _ => true) ∧ ∀ i < cfg.blkNums, Clear (fun _ => true) i l') := by
  obtain ⟨l', hfold, hdone⟩ := killWhere_conc (deletes_all mem) hl
  exact ⟨l', congrArg (fun s => (s, Res.ok)) hfold, hdone⟩

/-! ### Collecting -/

variable {b bg : Blk} {s : State}

theorem dirtyLoop_congr {t : State} (h : ∀ i, s.info i = t.info i) (origin rounds i : Nat) :
    dirtyLoop cfg s origin rounds i = dirtyLoop cfg t origin rounds i := by
  induction rounds generalizing i with
  | zero => rfl
  | succ rounds ih => simp only [dirtyLoop, h, ih]

/-- The block a collection takes is dirty. -/
theorem dirtyLoop_found {origin rounds j : Nat} (hj : j ≤ cfg.blkNums)
    (h : dirtyLoop cfg s origin rounds j = some i) : i < cfg.blkNums ∧ (s.info i).state = BlkState.dirty := by
  induction rounds generalizing j with
  | zero => cases h
  | succ rounds ih =>
    obtain ⟨k, hk⟩ : ∃ k, k = if j = cfg.blkNums then 0 else j := ⟨_, rfl⟩
    have hlt : k < cfg.blkNums := by
      have := cfg.enough
      rw [hk]
      split <;> omega
    simp only [dirtyLoop, ← hk] at h
    split at h
    · next hdirty =>
      cases h
      exact ⟨hlt, hdirty⟩
    · split at h
      · cases h
      · exact ih (by omega) h

theorem gcIndex_found (h : gcIndex cfg s = some g) : g < cfg.blkNums ∧ (s.info g).state = BlkState.clean := by
  have hclean := find?_some h
  exact ⟨mem_range.mp (mem_of_find?_eq_some h), eq_of_beq hclean⟩

/-- The callback of a collection, at a live entry. -/
theorem itemGcCb_conc (hfull : Full mem) (hat : l.blocks[i]? = some b) (hb : b.Sound cfg)
    (hsplit : b.entries = before ++ e :: after) (hcur : l.cur < 15) (hg : l.blocks[l.cur]? = some bg)
    (hblank : bg.mark ≠ .blank) (hroom : bg.fill cfg + e.size cfg < blkSize) :
    itemGcCb cfg mem ⟨e.hdr, posOf cfg i before, e.key.length + e.value.length, []⟩ (l.conc cfg) =
      ((l.append l.cur e).conc cfg, .cont) := by
  have hlen : align cfg (itemHeaderSize + (e.key.length + e.value.length)) = e.size cfg := by
    rw [← Nat.add_assoc]
    rfl
  have hread : read (l.conc cfg).flash (posOf cfg i before) (e.size cfg) = e.string cfg :=
    read_whole hat hb.mark hsplit hb.fill
  have happend := append_conc (e := e) hcur hg hblank hroom
  simp only [itemGcCb, (hfull _).2, hlen, hread]
  exact congrArg (fun s => (s, Verdict.cont)) happend

theorem append_blocks (h : l.blocks[i]? = some b) : (l.append i e).blocks[i]? = some ⟨b.mark, b.entries ++ [e]⟩ := by
  rw [append, blk_eq h]
  exact put_blocks h

theorem append_blocks_ne {j : Nat} (hne : i ≠ j) : (l.append i e).blocks[j]? = l.blocks[j]? := put_blocks_ne hne

/-- The traversal of a collection: the rest of the block goes to the write position. -/
theorem gc_visits (hfull : Full mem) (hi : i < 15) (hat : l.blocks[i]? = some b) (hb : b.Sound cfg)
    (hdirty : b.mark = .dirty) (hne : g ≠ i) (hg15 : g < 15) (hcur : l.cur = g) (hg : l.blocks[g]? = some bg)
    (hblank : bg.mark ≠ .blank) (hroom : bg.fill cfg + sizes cfg rest < blkSize) (hsplit : b.entries = done ++ rest) :
    Visits cfg mem (itemGcCb cfg mem) i (posOf cfg i done) (l.conc cfg) ((copyTo g l rest).conc cfg, none) := by
  induction rest generalizing done l bg with
  | nil =>
    rw [append_nil] at hsplit
    subst hsplit
    exact end_visits hi hat hb
  | cons e rest ih =>
    have hmore : b.entries = (done ++ [e]) ++ rest := by rw [hsplit, append_assoc]; rfl
    rw [sizes_cons] at hroom
    cases hlive : e.live with
    | false =>
      have hcopy : copyTo g l (e :: rest) = copyTo g l rest := by simp [copyTo, hlive]
      rw [hcopy]
      refine Visits.dead hi rfl hat hb hsplit (hfull _).1 hlive ?_
      rw [noteDirty_conc hat (by rw [hdirty]; decide)]
      exact ih hat hcur hg hblank (by omega) hmore
    | true =>
      have hcopy : copyTo g l (e :: rest) = copyTo g (l.append g e) rest := by simp [copyTo, hlive]
      subst hcur
      have hfunc := itemGcCb_conc hfull hat hb hsplit hg15 hg hblank (by omega)
      rw [hcopy]
      refine Visits.cont hi rfl hat hb hsplit (hfull _).1 hlive hfunc ?_
      refine ih ?_ rfl (append_blocks hg) hblank ?_ hmore
      · rw [append_blocks_ne hne]
        exact hat
      · simp only [Blk.fill, sizes_append, sizes_cons, sizes_nil] at hroom ⊢
        omega

/-- What the copying leaves. -/
theorem copyTo_spec (hg : l.blocks[g]? = some bg) (es : List Entry) (hcur : l.cur = g) :
    (copyTo g l es).cur = g ∧ (copyTo g l es).blocks = l.blocks.set g ⟨bg.mark, bg.entries ++ es.filter (·.live)⟩ ∧
      (copyTo g l es).gc = l.gc := by
  induction es generalizing l bg with
  | nil =>
    refine ⟨hcur, ?_, rfl⟩
    rw [filter_nil, append_nil]
    exact (set_eq_self hg).symm
  | cons e rest ih =>
    cases hlive : e.live with
    | false =>
      have hcopy : copyTo g l (e :: rest) = copyTo g l rest := by simp [copyTo, hlive]
      rw [hcopy, filter_cons_of_neg (by simp [hlive])]
      exact ih hg hcur
    | true =>
      have hcopy : copyTo g l (e :: rest) = copyTo g (l.append g e) rest := by simp [copyTo, hlive]
      obtain ⟨hcur', hblocks, hgc⟩ := ih (append_blocks (e := e) hg) rfl
      rw [hcopy, filter_cons_of_pos hlive]
      refine ⟨hcur', ?_, hgc⟩
      rw [hblocks, append, put, set_set, append_assoc]
      rfl

/-- The blocks of a collection that collects something. -/
structure Collects (cfg : Config) (l : Log) (g i : Nat) : Prop where
  target : l.blocks[g]? = some ⟨.clean, []⟩
  target_lt : g < cfg.blkNums
  source : l.blocks[i]? = some (l.blk i)
  source_lt : i < cfg.blkNums
  dirty : (l.blk i).mark = .dirty
  ne : g ≠ i

/-- Everything `collect` can do. -/
theorem collect_cases (cfg : Config) (hl : l.Running cfg) :
    ((l.cleans = 0 ∨ gcIndex cfg (l.conc cfg) = none ∨
        dirtyLoop cfg (l.conc cfg) l.cur (cfg.blkNums + 1) (l.cur + 1) = none) ∧
      l.collect cfg = { l with gc := false }) ∨
    ∃ g i, l.Collects cfg g i ∧ gcIndex cfg (l.conc cfg) = some g ∧
      dirtyLoop cfg (l.conc cfg) l.cur (cfg.blkNums + 1) (l.cur + 1) = some i ∧ l.cleans ≠ 0 ∧
      l.collect cfg =
        { ((copyTo g { l with cur := g } (l.blk i).entries).format i).put g
            ⟨.used, (((copyTo g { l with cur := g } (l.blk i).entries).format i).blk g).entries⟩ with gc := false } := by
  rw [collect]
  split
  · next h0 => exact .inl ⟨.inl h0, rfl⟩
  · next hcleans =>
    cases hgc : gcIndex cfg (l.conc cfg) with
    | none => exact .inl ⟨.inr (.inl rfl), rfl⟩
    | some g =>
      cases hdirty : dirtyLoop cfg (l.conc cfg) l.cur (cfg.blkNums + 1) (l.cur + 1) with
      | none => exact .inl ⟨.inr (.inr rfl), rfl⟩
      | some i =>
        right
        obtain ⟨hg, hclean⟩ := gcIndex_found hgc
        obtain ⟨hi, hstate⟩ := dirtyLoop_found hl.inside hdirty
        obtain ⟨hatg, -, -⟩ := hl.at hg
        obtain ⟨hati, -, -⟩ := hl.at hi
        rw [conc_info hatg, Blk.info, Mark.byte_eq_clean] at hclean
        rw [conc_info hati, Blk.info, Mark.byte_eq_dirty] at hstate
        have hempty := hl.fresh _ (mem_of_getElem? hatg) hclean
        have hblk : l.blk g = ⟨.clean, []⟩ := by rw [← hclean, ← hempty]
        refine ⟨g, i, ⟨by rw [← hblk]; exact hatg, hg, hati, hi, hstate, fun h => ?_⟩, rfl, rfl, hcleans, rfl⟩
        rw [h, hstate] at hclean
        cases hclean

theorem sizes_filter_le (cfg : Config) (es : List Entry) : sizes cfg (es.filter (·.live)) ≤ sizes cfg es := by
  induction es with
  | nil => exact Nat.le_refl _
  | cons e rest ih =>
    rw [filter_cons, sizes_cons]
    split
    · rw [sizes_cons]
      omega
    · omega

theorem gcBlock_conc (hfull : Full mem) (hl : l.Running cfg) (hc : l.Collects cfg g i) :
    gcBlock cfg mem g i { l.conc cfg with writePos := u16 (g * blkSize + blkHeaderSize) } =
      ({ ((copyTo g { l with cur := g } (l.blk i).entries).format i).put g
          ⟨.used, (((copyTo g { l with cur := g } (l.blk i).entries).format i).blk g).entries⟩ with gc := false } : Log).conc
        cfg := by
  obtain ⟨hati, hbi, hi15⟩ := hl.at hc.source_lt
  have hg15 := (hl.at hc.target_lt).2.2
  have hstart : { l.conc cfg with writePos := u16 (g * blkSize + blkHeaderSize) } =
      ({ l with cur := g } : Log).conc cfg := by
    have hpos : u16 (g * blkSize + blkHeaderSize) = g * blkSize + (l.blk g).fill cfg := by
      rw [blk_eq hc.target, u16_of_lt]
      · rfl
      · simp only [blkSize, blkHeaderSize]
        omega
    rw [hpos]
    rfl
  have hroom : (⟨.clean, []⟩ : Blk).fill cfg + sizes cfg (l.blk i).entries < blkSize := by
    have := hbi.fill
    rw [Blk.fill] at this ⊢
    simpa using this
  have hvisits : Visits cfg mem (itemGcCb cfg mem) i (posOf cfg i []) (({ l with cur := g } : Log).conc cfg)
      ((copyTo g { l with cur := g } (l.blk i).entries).conc cfg, none) :=
    gc_visits hfull hi15 hati hbi hc.dirty hc.ne hg15 rfl hc.target (show Mark.clean ≠ Mark.blank by decide) hroom rfl
  have htraverse := kvItemTraverse_eq hi15 hvisits
  obtain ⟨hcur, hblocks, -⟩ := copyTo_spec (l := { l with cur := g }) hc.target (l.blk i).entries rfl
  generalize copyTo g { l with cur := g } (l.blk i).entries = copied at htraverse hcur hblocks ⊢
  have hatc : copied.blocks[i]? = some (l.blk i) := by
    rw [hblocks, getElem?_set, if_neg hc.ne]
    exact hati
  have hcurne : i ≠ copied.cur := by
    rw [hcur]
    exact hc.ne.symm
  have hformat : kvBlockFormat (copied.conc cfg) i = (copied.format i).conc cfg :=
    format_conc hi15 hatc (by rw [hc.dirty]; decide) hcurne
  have hatg : (copied.format i).blocks[g]? = some ⟨.clean, (l.blk i).entries.filter (·.live)⟩ := by
    rw [format, put_blocks_ne hc.ne.symm, put_blocks_ne hc.ne.symm, hblocks]
    exact put_blocks hc.target
  have hfill : (⟨.clean, (l.blk i).entries.filter (·.live)⟩ : Blk).fill cfg < blkSize := by
    have hle := sizes_filter_le cfg (l.blk i).entries
    rw [Blk.fill] at hroom ⊢
    dsimp only at hroom ⊢
    omega
  have hcur' : (copied.format i).cur = g := hcur
  have hdiv : ((copied.format i).conc cfg).writePos / blkSize = g := by
    rw [writePos_div (b := ⟨.clean, (l.blk i).entries.filter (·.live)⟩) (by rw [hcur']; exact hatg) hfill, hcur']
  have hused := used_conc cfg hg15 hatg rfl
  rw [gcBlock, hstart, htraverse]
  simp only [hformat, hdiv]
  rw [blk_eq hatg]
  exact congrArg (fun s : State => { s with gcTriggered := false }) hused

theorem kvGc_eq (mem : Mem) (s : State) :
    kvGc cfg mem s =
      if s.cleanBlkNums = 0 then { s with gcTriggered := false }
      else
        match gcIndex cfg s with
        | none => { s with gcTriggered := false }
        | some g =>
          match dirtyLoop cfg s (s.writePos / blkSize) (cfg.blkNums + 1) (s.writePos / blkSize + 1) with
          | none => { s with gcTriggered := false }
          | some i => gcBlock cfg mem g i { s with writePos := u16 (g * blkSize + blkHeaderSize) } := by
  rw [kvGc]
  split
  · rfl
  · cases gcIndex cfg s with
    | none => rfl
    | some g =>
      have hinfo (k : Nat) : ({ s with writePos := u16 (g * blkSize + blkHeaderSize) } : State).info k = s.info k := rfl
      exact congrArg (fun r : Option Nat => match r with
        | none => { s with gcTriggered := false }
        | some i => gcBlock cfg mem g i { s with writePos := u16 (g * blkSize + blkHeaderSize) })
        (dirtyLoop_congr hinfo _ _ _)

/-- `qm_kv_gc` with its memory granted. -/
theorem kvGc_conc (hfull : Full mem) (hl : l.Running cfg) : kvGc cfg mem (l.conc cfg) = (l.collect cfg).conc cfg := by
  have hcleans : (l.conc cfg).cleanBlkNums = l.cleans := rfl
  obtain ⟨hatc, hbc, -⟩ := hl.at hl.inside
  rw [kvGc_eq, hcleans, writePos_div hatc hbc.fill]
  rcases collect_cases cfg hl with ⟨hidle, hcollect⟩ | ⟨g, i, hc, hgc, hdirty, h0, hcollect⟩
  · rw [hcollect]
    rcases hidle with h0 | hgc | hdirty
    · rw [if_pos h0]
      rfl
    · rw [hgc]
      split <;> rfl
    · rw [hdirty]
      split
      · rfl
      · cases gcIndex cfg (l.conc cfg) <;> rfl
  · rw [if_neg h0, hgc, hdirty, hcollect]
    exact gcBlock_conc hfull hl hc

/-- What a collection that collects something leaves. -/
theorem Collects.blocks (hc : l.Collects cfg g i) (h : l.collect cfg =
      { ((copyTo g { l with cur := g } (l.blk i).entries).format i).put g
          ⟨.used, (((copyTo g { l with cur := g } (l.blk i).entries).format i).blk g).entries⟩ with gc := false }) :
    (l.collect cfg).cur = g ∧
      (l.collect cfg).blocks = (l.blocks.set i ⟨.clean, []⟩).set g ⟨.used, (l.blk i).entries.filter (·.live)⟩ := by
  obtain ⟨hcur, hblocks, -⟩ := copyTo_spec (l := { l with cur := g }) hc.target (l.blk i).entries rfl
  rw [h]
  generalize copyTo g { l with cur := g } (l.blk i).entries = copied at hcur hblocks ⊢
  have hatg : (copied.format i).blocks[g]? = some ⟨.clean, (l.blk i).entries.filter (·.live)⟩ := by
    rw [format, put_blocks_ne hc.ne.symm, put_blocks_ne hc.ne.symm, hblocks]
    exact put_blocks hc.target
  refine ⟨hcur, ?_⟩
  rw [blk_eq hatg]
  simp only [format, put, hblocks, set_set]
  rw [set_comm _ _ hc.ne, set_set]

theorem Running.collect (hl : l.Running cfg) : (l.collect cfg).Running cfg := by
  rcases collect_cases cfg hl with ⟨-, hcollect⟩ | ⟨g, i, hc, -, -, -, hcollect⟩
  · rw [hcollect]
    exact ⟨hl.toSound.congr rfl, hl.inside, hl.writing⟩
  · obtain ⟨hcur, hblocks⟩ := hc.blocks hcollect
    obtain ⟨-, hbi, -⟩ := hl.at hc.source_lt
    have hempty : (⟨.clean, []⟩ : Blk).Sound cfg := hl.block _ (mem_of_getElem? hc.target)
    have hcopied : (⟨.used, (l.blk i).entries.filter (·.live)⟩ : Blk).Sound cfg := by
      refine ⟨show Mark.used ≠ Mark.blank by decide, ?_, fun e he => hbi.valid e (mem_filter.mp he).1⟩
      have hle := sizes_filter_le cfg (l.blk i).entries
      have hfill := hbi.fill
      simp only [Blk.fill] at hfill ⊢
      omega
    have hsound : ((l.put i ⟨.clean, []⟩).put g ⟨.used, (l.blk i).entries.filter (·.live)⟩).Sound cfg :=
      (hl.put _ hempty (fun h => by cases h) (fun _ => rfl)).put _ hcopied
        (fun _ e he => (mem_filter.mp he).2) (fun h => by cases h)
    refine ⟨hsound.congr hblocks, by rw [hcur]; exact hc.target_lt, ?_⟩
    have hat : (l.collect cfg).blocks[g]? = some ⟨.used, (l.blk i).entries.filter (·.live)⟩ := by
      rw [hblocks]
      exact put_blocks (l := l.put i ⟨.clean, []⟩) ((put_blocks_ne hc.ne.symm).trans hc.target)
    rw [hcur, blk_eq hat]
    show Mark.used ≠ Mark.clean
    decide

end Log

/-! ### Steps -/

/-- A key of `qm_kv_set` is not empty: such an item would not be found again. -/
def Event.Fine : Event → Prop
  | .set key _ => key.1 ≠ []
  | _ => True

instance : DecidablePred Event.Fine
  | .set key _ => inferInstanceAs (Decidable (key.1 ≠ []))
  | .get .. | .del _ | .delByPrefix _ | .delAll | .gc => isTrue trivial

def Log.concOut (cfg : Config) (r : Log × Outcome) : State × Outcome := (r.1.conc cfg, r.2)

variable {cfg : Config} {l : Log}

/-- **A call on the state of a log is the call on the log.** -/
theorem call_conc {e : Event} (hl : l.Running cfg) (he : e.Fine) :
    call cfg (fun _ => true) (l.conc cfg) e = (l.call cfg e).map (Log.concOut cfg) := by
  have hfull : Full fun _ => true := fun _ => ⟨rfl, rfl⟩
  cases e with
  | set key val =>
    rw [call, Log.call]
    by_cases hparam : val.length = 0 ∨ key.1.length > itemMaxKeyLen ∨ val.length > itemMaxValLen
    · rw [kvSet, if_pos hparam, if_pos hparam]
      rfl
    · have hkey : 0 < key.1.length := length_pos_of_ne_nil he
      have hkey' : 0 < key.1.length ∧ key.1.length ≤ itemMaxKeyLen := by omega
      have hval : 0 < val.length ∧ val.length ≤ itemMaxValLen := by omega
      obtain ⟨r, -, hr, hset | ⟨hno, -⟩⟩ := Log.kvSet_conc (fun _ => true) hl hkey' hval
      · rw [if_neg hparam, hset, hr hfull, Option.map_map, Option.map_map]
        rfl
      · cases hno
  | get key bufferLen =>
    obtain ⟨r, -, hr, hget⟩ := Log.kvGet_conc (fun _ => true) key.1 bufferLen hl.toSound
    rw [call, Log.call, hget, hr hfull]
    rfl
  | del key =>
    obtain ⟨r, -, hr, hdel⟩ := Log.kvDel_conc (fun _ => true) key.1 hl.toSound
    rw [call, Log.call, hdel, hr hfull]
    rfl
  | delByPrefix pre =>
    obtain ⟨l', hdel, -, hr⟩ := Log.kvDelByPrefix_conc (fun _ => true) pre.2 hl
    rw [call, Log.call, hdel, (hr hfull).1]
    rfl
  | delAll =>
    obtain ⟨l', hdel, -, hr⟩ := Log.kvDelAll_conc (fun _ => true) hl
    rw [call, Log.call, hdel, (hr hfull).1]
    rfl
  | gc =>
    rw [call, Log.call, Log.kvGc_conc hfull hl]
    rfl

theorem Log.Running.forget (hl : l.Running cfg) (images : List (List Blk)) :
    ({ l with images := images } : Log).Running cfg :=
  ⟨hl.toSound.congr rfl, hl.inside, hl.writing⟩

theorem exec_conc {e : Event} (hl : l.Running cfg) (he : e.Fine) :
    exec cfg (fun _ => true) (l.conc cfg) e = (l.exec cfg e).map (Log.concOut cfg) :=
  call_conc (hl.forget []) he

end Qumios.Kv
