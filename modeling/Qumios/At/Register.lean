import Qumios.Lib.Run

/-! Registration of AT command tables.

`qm_at_register_commands` passes the tables already registered, checks the new one against
each, and puts it into the first free place. While there is a free place a call is all or
nothing (`register_all_or_nothing`). Without one the loop ends with the result of its last
check, and a table that is not registered is reported as registered. -/
namespace Qumios.At.Register
open List

open Run

/-- `qm_at_cmd_t`: the name, and the callbacks that are not `NULL`. -/
structure Cmd where
  name : List UInt8
  test : Option Nat
  query : Option Nat
  setup : Option Nat
  exec : Option Nat
  deriving DecidableEq, Repr

/-- `qm_at_cmd_table_t`: a place is free while its table is empty. -/
structure Table where
  atCmdTable : List (List Cmd)
  cmdNum : UInt16
  deriving DecidableEq, Repr

/-- `CONFIG_QM_AT_CMD_NAME_MAX_LEN`. -/
def nameMaxLen : Nat := 16

/-- The comparison of both checks: the same name, or a callback of `new` that `old` has too. -/
def clash (new old : Cmd) : Bool :=
  new.name == old.name || (new.test.isSome && new.test == old.test) || (new.query.isSome && new.query == old.query) ||
    (new.setup.isSome && new.setup == old.setup) || (new.exec.isSome && new.exec == old.exec)

/-- `qm_check_cmd_tbl`. -/
def checkCmdTbl (tbl : List Cmd) : Bool :=
  tbl.all (·.name.length < nameMaxLen) && decide (tbl.Pairwise fun a b => !clash b a && !clash a b)

/-- `qm_check_cmd_name_and_callback`. -/
def checkCmdNameAndCallback (old tbl : List Cmd) : Bool := old.all fun c => tbl.all fun d => !clash d c

/-- The loop of `qm_at_register_commands`: the places behind it, whether the table is in one of them, and
what is returned. -/
def registerLoop (tbl : List Cmd) : List (List Cmd) → List (List Cmd) × Bool × Bool
  | [] => ([], false, true)
  | old :: rest =>
    if old = [] then (tbl :: rest, true, true)
    else if checkCmdNameAndCallback old tbl then
      let r := registerLoop tbl rest
      (old :: r.1, r.2)
    else (old :: rest, false, false)

/-- `qm_at_register_commands`, and whether it returns `QM_EOK`. -/
def registerCommands (t : Table) (tbl : List Cmd) : Table × Bool :=
  if tbl = [] ∨ checkCmdTbl tbl = false then (t, false)
  else
    let r := registerLoop tbl t.atCmdTable
    (⟨r.1, if r.2.1 then t.cmdNum + UInt16.ofNat tbl.length else t.cmdNum⟩, r.2.2)

/-- `qm_at_find_cmd`. -/
def findCmd (t : Table) (name : List UInt8) : Option Cmd := t.atCmdTable.flatten.find? (·.name == name)

def machine : Machine Table (List Cmd) Bool := ⟨fun t tbl => some (registerCommands t tbl)⟩

/-- What `qm_at_server_init` starts from, with `num` places. -/
def Table.fresh (num : Nat) : Table := ⟨List.replicate num [], 0⟩

/-- There is a free place, and the commands can still be counted. -/
def Free (t : Table) (tbl : List Cmd) : Prop := [] ∈ t.atCmdTable ∧ t.cmdNum.toNat + tbl.length < 65536

instance (t : Table) (tbl : List Cmd) : Decidable (Free t tbl) := inferInstanceAs (Decidable (_ ∧ _))

/-- Behind a free place all are free. -/
def Packed : List (List Cmd) → Prop
  | [] => True
  | old :: rest => (old = [] → rest.flatten = []) ∧ Packed rest

/-- With a free place, the table is behind all the others or nothing has changed. -/
theorem registerLoop_cases {tbl : List Cmd} {places : List (List Cmd)} (hp : Packed places) (hfree : [] ∈ places)
    (htbl : tbl ≠ []) :
    (∃ after, registerLoop tbl places = (after, true, true) ∧ after.flatten = places.flatten ++ tbl ∧
        Packed after ∧ ∀ c ∈ places.flatten, ∀ d ∈ tbl, clash d c = false) ∨
      registerLoop tbl places = (places, false, false) := by
  induction places with
  | nil => cases hfree
  | cons old rest ih =>
    unfold registerLoop
    split_ifs with hempty hcheck
    · obtain ⟨hrest, hpacked⟩ := hp
      refine .inl ⟨_, rfl, ?_, ⟨fun h => absurd h htbl, hpacked⟩, ?_⟩ <;> simp [hempty, hrest hempty]
    · have hlater : [] ∈ rest := (mem_cons.mp hfree).resolve_left (Ne.symm hempty)
      rcases ih hp.2 hlater with ⟨after, heq, hflat, hpacked, hapart⟩ | heq
      · refine .inl ⟨old :: after, by rw [heq], by simp [hflat], ⟨fun h => absurd h hempty, hpacked⟩, ?_⟩
        intro c hc d hd
        rcases mem_append.mp (flatten_cons ▸ hc) with hold | hlater
        · simp only [checkCmdNameAndCallback, all_eq_true, Bool.not_eq_true'] at hcheck
          exact hcheck c hold d hd
        · exact hapart c hlater d hd
      · exact .inr (by rw [heq])
    · exact .inr rfl

theorem name_ne_of_clash {new old : Cmd} (h : clash new old = false) : new.name ≠ old.name := by
  intro heq
  simp [clash, heq] at h

/-- The tables have no two commands of one name, and all are counted. -/
structure Inv (t : Table) : Prop where
  packed : Packed t.atCmdTable
  names : (t.atCmdTable.flatten.map (·.name)).Nodup
  count : t.cmdNum.toNat = t.atCmdTable.flatten.length

theorem Inv.fresh (num : Nat) : Inv (.fresh num) := by
  refine ⟨?_, by simp [Table.fresh], by simp [Table.fresh]⟩
  induction num with
  | zero => trivial
  | succ num ih => exact ⟨fun _ => by simp, ih⟩

/-- What a call does: all of it or nothing. -/
theorem Inv.register {t : Table} (h : Inv t) {tbl : List Cmd} (hc : Free t tbl) :
    Inv (registerCommands t tbl).1 ∧
      (((registerCommands t tbl).2 = true ∧
          (registerCommands t tbl).1.atCmdTable.flatten = t.atCmdTable.flatten ++ tbl) ∨
        registerCommands t tbl = (t, false)) := by
  unfold registerCommands
  split_ifs with hbad
  · exact ⟨h, .inr rfl⟩
  · rw [not_or, Bool.not_eq_false] at hbad
    obtain ⟨htbl, hcheck⟩ := hbad
    rcases registerLoop_cases h.packed hc.1 htbl with ⟨after, heq, hflat, hpacked, hapart⟩ | heq
    · rw [heq]
      refine ⟨⟨hpacked, ?_, ?_⟩, .inl ⟨rfl, hflat⟩⟩
      · simp only [checkCmdTbl, Bool.and_eq_true, decide_eq_true_eq, Bool.not_eq_true'] at hcheck
        have hnew : (tbl.map (·.name)).Nodup :=
          pairwise_map.mpr (hcheck.2.imp fun hboth => name_ne_of_clash hboth.2)
        simp only [hflat, map_append]
        refine nodup_append.mpr ⟨h.names, hnew, ?_⟩
        rintro _ ha _ hb rfl
        obtain ⟨c, hcmem, rfl⟩ := mem_map.mp ha
        obtain ⟨d, hdmem, hname⟩ := mem_map.mp hb
        exact name_ne_of_clash (hapart c hcmem d hdmem) hname
      · have hcount := h.count
        have hfew := hc.2
        simp only [hflat, if_true, length_append, UInt16.toNat_add, UInt16.toNat_ofNat']
        omega
    · rw [heq]
      exact ⟨h, .inr rfl⟩

theorem Inv.find {t : Table} (h : Inv t) {c : Cmd} (hc : c ∈ t.atCmdTable.flatten) : findCmd t c.name = some c := by
  unfold findCmd
  obtain ⟨d, hd⟩ : ∃ d, t.atCmdTable.flatten.find? (·.name == c.name) = some d :=
    Option.isSome_iff_exists.mp (find?_isSome.mpr ⟨c, hc, beq_self_eq_true _⟩)
  have hname : d.name = c.name := by simpa using find?_some hd
  rw [hd, inj_on_of_nodup_map h.names (mem_of_find?_eq_some hd) hc hname]

/-- **Registration is all or nothing**: in every run of calls that each find a free place and keep the
number of commands below 65536, names are distinct over all tables and `cmd_num` is the number of
commands; a further such call that succeeds makes each of its commands the one found under its name, and
one that fails changes nothing. -/
theorem register_all_or_nothing {num : Nat} {tables : List (List Cmd)} {t : Table} {trace : List (List Cmd × Bool)}
    (hc : machine.Meets Free (.fresh num) tables) (hr : machine.run (.fresh num) tables = some (t, trace)) :
    (t.atCmdTable.flatten.map (·.name)).Nodup ∧ t.cmdNum.toNat = t.atCmdTable.flatten.length ∧
      ∀ tbl, Free t tbl →
        ((registerCommands t tbl).2 = true → ∀ c ∈ tbl, findCmd (registerCommands t tbl).1 c.name = some c) ∧
        ((registerCommands t tbl).2 = false → (registerCommands t tbl).1 = t) := by
  have hinv : Inv t := machine.run_invariant Free (fun _ t => Inv t)
    (fun _ s e s' o h hc hs => by
      obtain ⟨rfl, rfl⟩ := Prod.mk.inj (Option.some.inj hs)
      exact (h.register hc).1) (Inv.fresh num) hc hr
  refine ⟨hinv.names, hinv.count, fun tbl hfree => ?_⟩
  obtain ⟨hafter, ⟨hok, hflat⟩ | heq⟩ := hinv.register hfree
  · exact ⟨fun _ c hmem => hafter.find (hflat ▸ mem_append_right _ hmem), fun hno => by simp [hok] at hno⟩
  · exact ⟨fun hyes => by simp [heq] at hyes, fun _ => by rw [heq]⟩

/-- A table of one command, with a name of one character. -/
def single (c : UInt8) : List Cmd := [⟨[c], none, none, none, some c.toNat⟩]

theorem register_all_or_nothing_two : ∃ t trace,
    machine.run (.fresh 10) [single 65, single 65] = some (t, trace) ∧ trace.map (·.2) = [true, false] ∧
      t.cmdNum.toNat = t.atCmdTable.flatten.length :=
  ⟨_, _, rfl, by decide +kernel,
    (@register_all_or_nothing 10 [single 65, single 65] _ _ (by decide +kernel) rfl).2.1⟩

/-- Ten tables in ten places: the eleventh is reported as registered, and its command is not found. -/
theorem register_eleventh : ∃ t trace,
    machine.run (.fresh 10) ([1, 2, 3, 4, 5, 6, 7, 8, 9, 10, 11].map single) = some (t, trace) ∧
      trace.map (·.2) = List.replicate 11 true ∧ findCmd t [11] = none :=
  ⟨_, _, rfl, by decide +kernel, by decide +kernel⟩

end Qumios.At.Register
