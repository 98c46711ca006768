import Qumios.Kv.Sweeps
import Qumios.Lib.Assoc

/-! What the store holds: its live entries, as a map from keys to values.

`Stores` relates a log to the map it stands for. Every call keeps the relation, with
the map changed as the call says. -/
namespace Qumios.Kv
open Nor Assoc List

/-- One list of a concatenation, changed for another. -/
theorem flatMap_set_perm {α β : Type} (f : α → List β) {xs : List α} {i : Nat} {a : α} (h : xs[i]? = some a) :
    ∃ rest, (xs.flatMap f).Perm (f a ++ rest) ∧ ∀ b, ((xs.set i b).flatMap f).Perm (f b ++ rest) := by
  induction xs generalizing i with
  | nil => cases h
  | cons x xs ih =>
    cases i with
    | zero =>
      cases h
      exact ⟨xs.flatMap f, .refl _, fun b => .refl _⟩
    | succ i =>
      obtain ⟨rest, hxs, hset⟩ := ih h
      refine ⟨f x ++ rest, ?_, fun b => ?_⟩
      · exact (hxs.append_left (f x)).trans (perm_append_comm_assoc _ _ _)
      · exact ((hset b).append_left (f x)).trans (perm_append_comm_assoc _ _ _)

def Blk.live (b : Blk) : List Entry := b.entries.filter (·.live)

def liveOf (bs : List Blk) : List Entry := bs.flatMap Blk.live

theorem mem_liveOf {bs : List Blk} {e : Entry} :
    e ∈ liveOf bs ↔ e.live = true ∧ ∃ b ∈ bs, e ∈ b.entries := by
  simp only [liveOf, mem_flatMap, Blk.live, mem_filter]
  constructor
  · intro h
    obtain ⟨b, hb, he, hlive⟩ := h
    exact ⟨hlive, b, hb, he⟩
  · intro h
    obtain ⟨hlive, b, hb, he⟩ := h
    exact ⟨b, hb, he, hlive⟩

section Live
variable {bs : List Blk} {b : Blk} {i : Nat}

theorem liveOf_set (h : bs[i]? = some b) :
    ∃ rest, (liveOf bs).Perm (b.live ++ rest) ∧ ∀ b', (liveOf (bs.set i b')).Perm (b'.live ++ rest) :=
  flatMap_set_perm Blk.live h

theorem liveOf_kill {before after : List Entry} {e : Entry} (m : Mark) (h : bs[i]? = some b)
    (hsplit : b.entries = before ++ e :: after) (hlive : e.live = true) :
    (liveOf bs).Perm (e :: liveOf (bs.set i ⟨m, before ++ e.dead :: after⟩)) := by
  obtain ⟨rest, hall, hset⟩ := liveOf_set h
  have hold : b.live = before.filter (·.live) ++ e :: after.filter (·.live) := by
    rw [Blk.live, hsplit, filter_append, filter_cons_of_pos hlive]
  have hnew : (⟨m, before ++ e.dead :: after⟩ : Blk).live = before.filter (·.live) ++ after.filter (·.live) := by
    rw [Blk.live, filter_append, filter_cons_of_neg (by simp [Entry.dead])]
  have hkilled := hset ⟨m, before ++ e.dead :: after⟩
  rw [hnew, append_assoc] at hkilled
  rw [hold, append_assoc, cons_append] at hall
  exact hall.trans (perm_middle.trans (hkilled.symm.cons e))

theorem liveOf_same {b' : Blk} (h : bs[i]? = some b) (hlive : b'.live = b.live) :
    (liveOf (bs.set i b')).Perm (liveOf bs) := by
  obtain ⟨rest, hall, hset⟩ := liveOf_set h
  have := hset b'
  rw [hlive] at this
  exact this.trans hall.symm

end Live

theorem update_cases (m : Bytes → Option Bytes) (key : Bytes) (v : Option Bytes) (k : Bytes) :
    Function.update m key v k = m k ∨ k = key ∧ Function.update m key v k = v := by
  by_cases hk : k = key
  · subst hk
    exact .inr ⟨rfl, Function.update_self ..⟩
  · exact .inl (Function.update_of_ne hk ..)

variable {m : Bytes → Option Bytes} {cfg : Config} {l : Log}

theorem update_gone {m' : Bytes → Option Bytes} {q : Bytes → Bool} {key : Bytes}
    (h : ∀ k, m' k = m k ∨ q k = true ∧ m' k = none) (hq : q key = true) (k : Bytes) :
    Function.update m' key none k = m k ∨ q k = true ∧ Function.update m' key none k = none := by
  rcases update_cases m' key none k with hk | ⟨rfl, hk⟩
  · rw [hk]
    exact h k
  · exact .inr ⟨hq, hk⟩

namespace Log
variable {cfg : Config} {l l' : Log} {i : Nat} {before after : List Entry} {e : Entry} {key val : Bytes}

def live (l : Log) : List Entry := liveOf l.blocks

theorem At.mem_live (h : l.At i before e after) (hlive : e.live = true) : e ∈ l.live :=
  mem_liveOf.mpr ⟨hlive, l.blk i, h.mem, by rw [h.split]; simp⟩

theorem exists_at (h : e ∈ l.live) : ∃ i before after, l.At i before e after ∧ e.live = true := by
  obtain ⟨hlive, b, hb, he⟩ := mem_liveOf.mp h
  obtain ⟨i, hi, rfl⟩ := mem_iff_getElem.mp hb
  obtain ⟨before, after, hsplit⟩ := append_of_mem he
  have hblk : l.blk i = l.blocks[i] := blk_eq (getElem?_eq_getElem hi)
  exact ⟨i, before, after, ⟨hi, by rw [hblk, hsplit]⟩, hlive⟩

theorem live_place {len : Nat} {o : Option Nat} (hl : l.Running cfg) (h : l.place cfg len = some (l', o)) :
    l'.live.Perm l.live := by
  rcases place_cases hl h with ⟨-, rfl⟩ | ⟨i, b, -, -, hat, -, hhow⟩
  · exact .refl _
  · rcases hhow with ⟨-, gc, rfl⟩ | ⟨rfl, -, rfl⟩
    · exact .refl _
    · exact liveOf_same hat rfl

theorem live_append (hi : i < l.blocks.length) (hlive : e.live = true) : (l.append i e).live.Perm (e :: l.live) := by
  obtain ⟨rest, hl, hset⟩ := liveOf_set (blocks_of_lt hi)
  have hnew : (⟨(l.blk i).mark, (l.blk i).entries ++ [e]⟩ : Blk).live = (l.blk i).live ++ [e] := by
    simp [Blk.live, filter_append, hlive]
  refine (hset _).trans ?_
  rw [hnew, append_assoc]
  exact (perm_middle).trans (hl.symm.cons e)

theorem live_kill (h : l.At i before e after) (hlive : e.live = true) :
    l.live.Perm (e :: (l.kill i before e after).live) := by
  rw [live, live, kill_blocks]
  exact liveOf_kill _ (blocks_of_lt h.block) h.split hlive

theorem live_placed {len : Nat} {placed : Log} (hl : l.Running cfg)
    (h : l.place cfg len = some (placed, some placed.cur)) (hlive : e.live = true) :
    (placed.append placed.cur e).live.Perm (e :: l.live) := by
  have hrun := hl.place h
  have hinside : placed.cur < placed.blocks.length := by
    rw [hrun.length]
    exact hrun.inside
  exact (live_append hinside hlive).trans ((live_place hl h).cons e)

/-- What is moved from a block that is then emptied to one that was empty. -/
theorem Collects.moved (hc : l.Collects cfg g i) {c : Blk} (hempty : c.entries = []) (mk : Mark) :
    (liveOf ((l.blocks.set i c).set g ⟨mk, (l.blk i).entries.filter (·.live)⟩)).Perm l.live := by
  obtain ⟨rest, hlive, hset⟩ := liveOf_set hc.source
  have hatg : (l.put i c).blocks[g]? = some ⟨.clean, []⟩ := (put_blocks_ne hc.ne.symm).trans hc.target
  obtain ⟨rest', hlive', hset'⟩ := liveOf_set hatg
  -- without the source, and with a target that is still empty, the rest is left
  have hrest : rest'.Perm rest := by
    have hwithout := hset c
    rw [Blk.live, hempty] at hwithout
    exact hlive'.symm.trans hwithout
  have hcopied : (⟨mk, (l.blk i).entries.filter (·.live)⟩ : Blk).live = (l.blk i).live := by
    simp [Blk.live, filter_filter]
  refine (hset' _).trans ?_
  rw [hcopied]
  exact (hrest.append_left _).trans hlive.symm

theorem live_collect (hl : l.Running cfg) : (l.collect cfg).live.Perm l.live := by
  rcases collect_cases cfg hl with ⟨-, hcollect⟩ | ⟨g, i, hc, -, -, -, hcollect⟩
  · rw [hcollect]
    exact .refl _
  · rw [live, (hc.blocks hcollect).2]
    exact hc.moved rfl .used

/-! ### The map -/

/-- The log runs, and stands for this map. -/
structure Stores (cfg : Config) (l : Log) (m : Bytes → Option Bytes) : Prop extends l.Running cfg where
  shows : Represents Entry.key Entry.value l.live m

variable {m : Bytes → Option Bytes} {r : Option (Nat × List Entry × Entry × List Entry)} {p : Entry → Bool}
  {q : Bytes → Bool} {mem : Mem}

theorem Stores.forget (h : l.Stores cfg m) (images : List (List Blk)) : ({ l with images := images } : Log).Stores cfg m :=
  ⟨h.toRunning.forget images, h.shows⟩

theorem find_genuine (hl : l.Sound cfg) (key : Bytes) : l.Genuine key (l.find cfg key) := by
  intro i before e after hfind
  refine findLoop_some hfind fun j hj => ?_
  rw [hl.length]
  exact mem_range.mp hj

theorem find_none (hl : l.Sound cfg) (h : l.find cfg key = none) : ∀ e ∈ l.live, e.key ≠ key := by
  intro e he hkey
  obtain ⟨i, before, after, hat, hlive⟩ := exists_at he
  have hmiss := findLoop_none h i (mem_range.mpr (hat.lt hl)) (hat.ne_clean hl) e (by rw [hat.split]; simp)
  simp [holdsKey, hlive, hkey] at hmiss

section
variable (h : l.Stores cfg m)
include h

theorem Stores.genuine (hr : l.Genuine key (some (i, before, e, after))) :
    l.At i before e after ∧ e.live = true ∧ e.key = key ∧ m key = some e.value := by
  obtain ⟨hat, hkey⟩ := hr i before e after rfl
  simp only [holdsKey, Bool.and_eq_true, beq_iff_eq] at hkey
  obtain ⟨hlive, rfl⟩ := hkey
  exact ⟨hat, hlive, rfl, h.shows.eq_some (hat.mem_live hlive)⟩

theorem Stores.find (key : Bytes) : ((l.find cfg key).map fun x => x.2.2.1.value) = m key := by
  cases hfind : l.find cfg key with
  | none => exact (h.shows.eq_none_iff.mpr (find_none h.toSound hfind)).symm
  | some x =>
    have hgenuine := find_genuine h.toSound key
    rw [hfind] at hgenuine
    exact (h.genuine hgenuine).2.2.2.symm

theorem Stores.kill (hat : l.At i before e after) (hlive : e.live = true) :
    (l.kill i before e after).Stores cfg (Function.update m e.key none) :=
  ⟨h.toRunning.kill hat, (h.shows.perm (live_kill hat hlive)).tail⟩

theorem Stores.replace {old : Entry} {es : List Entry} (hold : old ∈ l.live) (hkey : e.key = old.key)
    (hes : (old :: es).Perm (e :: l.live)) :
    Represents Entry.key Entry.value es (Function.update m old.key (some e.value)) := by
  obtain ⟨rest, hrest⟩ : ∃ rest, l.live.Perm (old :: rest) := ⟨_, perm_cons_erase hold⟩
  have hleft : es.Perm (e :: rest) :=
    (perm_cons old).mp ((hes.trans (hrest.cons e)).trans (.swap old e rest))
  exact ((h.shows.perm hrest).replace hkey).perm hleft.symm

/-- A set that found the key, or found rightly that it is not there. -/
theorem Stores.set {res : Res} (hkey : 0 < key.length ∧ key.length ≤ itemMaxKeyLen)
    (hval : 0 < val.length ∧ val.length ≤ itemMaxValLen) (hr : l.Genuine key r) (hnone : r = none → m key = none)
    (hset : l.setAt cfg key val r = some (l', res)) :
    (res = .noSpace ∧ l'.Stores cfg m) ∨ (res = .ok ∧ l'.Stores cfg (Function.update m key (some val))) := by
  rcases setAt_cases h.toRunning hr hset with ⟨rfl, rfl⟩ | ⟨i, before, old, after, rfl, rfl, rfl, rfl⟩ |
    ⟨rfl, e, placed, b, hlive, rfl, rfl, horigin, -, hplace, hrun, hat, hroom, hhow⟩
  · exact .inl ⟨rfl, ⟨h.toSound.congr rfl, h.inside, h.writing⟩, h.shows⟩
  · -- the value is there already
    refine .inr ⟨rfl, ?_⟩
    rw [Function.update_eq_self_iff.mpr (h.genuine hr).2.2.2.symm]
    exact h
  · right
    have happend := live_placed h.toRunning hplace hlive
    have hgoing := hrun.append hat ⟨hkey, hval, horigin⟩ hlive hroom
    rcases hhow with ⟨rfl, rfl⟩ | ⟨i, before, old, after, after', rfl, hat', rfl⟩
    · have hfresh := h.shows.eq_none_iff.mp (hnone rfl)
      exact ⟨rfl, hgoing, (h.shows.cons hfresh).perm happend.symm⟩
    · obtain ⟨hatold, hlold, hkold, -⟩ := h.genuine hr
      have hreplace := h.replace (hatold.mem_live hlold) hkold.symm ((live_kill hat' hlold).symm.trans happend)
      rw [hkold] at hreplace
      exact ⟨rfl, hgoing.kill hat', hreplace⟩

theorem Stores.del (hr : l.Genuine key r) :
    (r = none ∧ l.delAt r = (l, .itemNotFound)) ∨
      ((l.delAt r).2 = .ok ∧ (l.delAt r).1.Stores cfg (Function.update m key none)) := by
  cases r with
  | none => exact .inl ⟨rfl, rfl⟩
  | some x =>
    obtain ⟨hat, hlive, rfl, -⟩ := h.genuine hr
    exact .inr ⟨rfl, h.kill hat hlive⟩

theorem Stores.kills (hkills : Kills (fun e => q e.key) l l') :
    ∃ m', l'.Stores cfg m' ∧ ∀ k, m' k = m k ∨ q k = true ∧ m' k = none := by
  induction hkills with
  | refl => exact ⟨m, h, fun k => .inl rfl⟩
  | @step l' i before after e _ hat hlive hq ih =>
    obtain ⟨m', hm', hkeep⟩ := ih
    exact ⟨_, hm'.kill hat hlive, update_gone hkeep hq⟩

/-- Deletions that left none take away all such bindings. -/
theorem Stores.killed (hkills : Kills (fun e => q e.key) l l')
    (hclear : ∀ i < cfg.blkNums, Clear (fun e => q e.key) i l') :
    l'.Stores cfg fun k => if q k then none else m k := by
  obtain ⟨m', hm', hkeep⟩ := h.kills hkills
  have heq : m' = fun k => if q k then none else m k := by
    funext k
    split
    · next hq =>
      refine hm'.shows.eq_none_iff.mpr fun e he hk => ?_
      obtain ⟨i, before, after, hat, hlive⟩ := exists_at he
      have hno : q e.key = false := hclear i (hat.lt hm'.toSound) e (by rw [hat.split]; simp) hlive
      rw [hk, hq] at hno
      cases hno
    · next hq =>
      rcases hkeep k with hk | ⟨hq', -⟩
      · exact hk
      · exact absurd hq' hq
  rw [← heq]
  exact hm'

theorem Stores.collect : (l.collect cfg).Stores cfg m :=
  ⟨h.toRunning.collect, h.shows.perm (live_collect h.toRunning).symm⟩
end

end Log

/-! ### What a caller sees -/

/-- The value `qm_kv_get` returns into a buffer that is large enough for any. -/
def contents (cfg : Config) (s : State) (key : Bytes) : Option Bytes :=
  match (kvGet cfg (fun _ => true) key itemMaxValLen s).2 with
  | .value val => some val
  | _ => none

/-- It is the value of the first live entry of the key. -/
theorem Log.Sound.contents (h : l.Sound cfg) (key : Bytes) :
    contents cfg (l.conc cfg) key = (l.find cfg key).map fun x => x.2.2.1.value := by
  obtain ⟨r, hr, hfull, hget⟩ := Log.kvGet_conc (fun _ => true) key itemMaxValLen h
  have hr' := hfull fun _ => ⟨rfl, rfl⟩
  rw [Kv.contents, hget, ← hr']
  cases r with
  | none => rfl
  | some x =>
    obtain ⟨i, before, e, after⟩ := x
    obtain ⟨hat, -⟩ := hr i before e after rfl
    have hvalue := ((h.block _ hat.mem).valid e (by rw [hat.split]; simp)).value.2
    have hlarge : answer itemMaxValLen (some e.value) = .value e.value := by
      rw [answer, if_neg (by decide), if_neg (by omega)]
    rw [Option.map_some, hlarge]

theorem Log.Sound.of_contents_some {key val : Bytes} (h : l.Sound cfg)
    (hc : Kv.contents cfg (l.conc cfg) key = some val) : ∃ e ∈ l.live, e.key = key ∧ e.value = val := by
  rw [h.contents] at hc
  obtain ⟨⟨i, before, e, after⟩, hfind, hval⟩ := Option.map_eq_some_iff.mp hc
  obtain ⟨hat, hkey⟩ := Log.find_genuine h key i before e after hfind
  simp only [Log.holdsKey, Bool.and_eq_true, beq_iff_eq] at hkey
  exact ⟨e, hat.mem_live hkey.1, hkey.2, hval⟩

theorem Log.Stores.contents (h : l.Stores cfg m) : contents cfg (l.conc cfg) = m := by
  funext key
  rw [h.toSound.contents, h.find]

end Qumios.Kv
