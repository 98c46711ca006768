import Qumios.At.Server

/-! The input stays within its buffers.

While a zero is left behind the bytes that were collected (`Holding`), the buffer is a string, and every round does one
of three things to the line: nothing, one character less, or one more. A byte that is stored needs two places, its own
and that of the NUL; and the one that ends a line needs the name in front to be short enough. Neither is looked at: a
stream keeps to its buffers exactly if all its bytes happen to fit (`at_server_within_iff`). -/
namespace Qumios.At
open CString Run List Option

/-! ### Lines -/

/-- The buffer holds a line, and at least one zero behind it. -/
structure Holding (s : Server) (line : Bytes) (room : Nat) : Prop where
  filled : Filled s.recvBuf line (room + 1)
  counted : s.curRecvLen = line.length

def Server.Within (s : Server) : Prop := ∃ line room, Holding s line room

variable {s : Server} {r : Option (Server × List Output)}

theorem Server.Within.room (h : s.Within) : s.curRecvLen < s.recvBuf.length := by
  obtain ⟨line, room, hs⟩ := h
  rw [hs.counted, hs.filled.length]
  omega

theorem Server.Within.congr {t : Server} (h : s.Within) (hbuf : t.recvBuf = s.recvBuf)
    (hcount : t.curRecvLen = s.curRecvLen) : t.Within := by
  obtain ⟨line, room, hs⟩ := h
  exact ⟨line, room, hbuf ▸ hs.filled, hcount.trans hs.counted⟩

theorem within_init {recvBufLen : Nat} (hpos : 0 < recvBufLen) (echoMode : Bool) :
    (Server.init recvBufLen echoMode).Within := by
  obtain ⟨room, rfl⟩ := Nat.exists_eq_succ_of_ne_zero (Nat.ne_of_gt hpos)
  exact ⟨[], room, filled_zeros _, rfl⟩

theorem Holding.retry {line : Bytes} {room : Nat} (h : Filled s.recvBuf line room) (hpos : 0 < room) :
    s.retry.Within := by
  obtain ⟨rest, hrest⟩ : ∃ rest, s.recvBuf.length = rest + 1 := Nat.exists_eq_succ_of_ne_zero (by rw [h.length]; omega)
  exact ⟨[], rest, by rw [Server.retry, hrest]; exact filled_zeros _, rfl⟩

/-- A line with an end mark has a CR, so that the search for the end of the name does not fail. -/
theorem cr_mem_of_hasEndMark {line : Bytes} (h : hasEndMark line = true) : cr ∈ line := by
  induction line with
  | nil => cases h
  | cons a rest ih =>
    cases rest with
    | nil => cases h
    | cons b rest =>
      rw [hasEndMark, Bool.or_eq_true, Bool.and_eq_true] at h
      rcases h with ⟨ha, _⟩ | h
      · exact eq_of_beq ha ▸ mem_cons_self ..
      · exact mem_cons_of_mem _ (ih h)

theorem findIdx?_of_hasEndMark {line : Bytes} (h : hasEndMark line = true) :
    line.findIdx? isDelimiter = some (line.findIdx isDelimiter) :=
  findIdx?_eq_some_of_exists ⟨cr, cr_mem_of_hasEndMark h, by decide⟩

/-! ### What a byte needs -/

namespace Server

def Stores (s : Server) (ch : UInt8) : Prop :=
  ch ≠ 0 ∧ ¬ (s.echoMode = true ∧ (ch = backspaceKey ∨ ch = delectKey))

def line (s : Server) (ch : UInt8) : Bytes := s.recvBuf.take s.curRecvLen ++ [ch]

/-- A byte that is put into the buffer leaves a place behind it; if it ends the line, the name in front has fewer than
`CONFIG_QM_AT_CMD_NAME_MAX_LEN` bytes. -/
def Fits (s : Server) (ch : UInt8) : Prop :=
  s.Stores ch → s.curRecvLen + 1 < s.recvBuf.length ∧
    (hasEndMark (s.line ch) = true → (s.line ch).findIdx isDelimiter < cmdNameMaxLen)

instance (s : Server) (ch : UInt8) : Decidable (s.Stores ch) :=
  inferInstanceAs (Decidable (ch ≠ 0 ∧ ¬ (s.echoMode = true ∧ (ch = backspaceKey ∨ ch = delectKey))))

instance (s : Server) (ch : UInt8) : Decidable (s.Fits ch) :=
  inferInstanceAs (Decidable (s.Stores ch → s.curRecvLen + 1 < s.recvBuf.length ∧
    (hasEndMark (s.line ch) = true → (s.line ch).findIdx isDelimiter < cmdNameMaxLen)))

end Server

/-- The names of commands, with their NUL, fit `cur_cmd_name`. -/
def NamesFit (shown : List Output) : Prop := ∀ name args, .command name args ∈ shown → name.length + 1 ≤ cmdNameMaxLen

theorem namesFit_nil : NamesFit [] := nofun

theorem namesFit_echo (chars : Bytes) : NamesFit [.echo chars] := fun _ _ h => by
  cases mem_singleton.mp h

theorem NamesFit.append {a b : List Output} (ha : NamesFit a) (hb : NamesFit b) : NamesFit (a ++ b) :=
  fun name args h => (mem_append.mp h).elim (ha name args) (hb name args)

/-- A round that comes through exactly if something fits, and leaves the buffer and the names within their bounds. -/
structure Keeps (r : Option (Server × List Output)) (fits : Prop) : Prop where
  enabled : (∃ x, r = some x) ↔ fits
  after : ∀ x, r = some x → x.1.Within ∧ NamesFit x.2

theorem keeps_some (h : s.Within) {shown : List Output} (hnames : NamesFit shown) : Keeps (some (s, shown)) True := by
  refine ⟨⟨fun _ => trivial, fun _ => ⟨_, rfl⟩⟩, ?_⟩
  rintro _ ⟨⟩
  exact ⟨h, hnames⟩

theorem keeps_none : Keeps none False := ⟨⟨nofun, nofun⟩, nofun⟩

theorem Keeps.congr {fits fits' : Prop} (h : Keeps r fits) (hiff : fits ↔ fits') :
    Keeps r fits' := ⟨h.enabled.trans hiff, h.after⟩

/-- Something is shown in front. -/
theorem Keeps.shown {fits : Prop} (h : Keeps r fits) {echoed : List Output} (hechoed : NamesFit echoed) :
    Keeps (r.map fun x => (x.1, echoed ++ x.2)) fits := by
  constructor
  · rw [← h.enabled]
    constructor
    · rintro ⟨x, hx⟩
      obtain ⟨y, hy, _⟩ := map_eq_some_iff.mp hx
      exact ⟨y, hy⟩
    · rintro ⟨x, hx⟩
      exact ⟨_, by rw [hx, map_some]⟩
  · intro x hx
    obtain ⟨y, hy, rfl⟩ := map_eq_some_iff.mp hx
    exact ⟨(h.after y hy).1, hechoed.append (h.after y hy).2⟩

section

variable (process : Bytes → Bytes → Bool → Bool) (build : Build) {s : Server}

/-- The end of a round, in a buffer that is a string. -/
theorem command_keeps {line : Bytes} {room : Nat} (h : Filled s.recvBuf line (room + 1))
    (hcount : s.curRecvLen = line.length) :
    Keeps (s.command process) (hasEndMark line = true → line.findIdx isDelimiter < cmdNameMaxLen) := by
  rw [Server.command, h.text_eq]
  by_cases hmark : hasEndMark line = true
  · rw [if_pos hmark, findIdx?_of_hasEndMark hmark]
    dsimp only
    by_cases hname : line.findIdx isDelimiter + 1 ≤ cmdNameMaxLen
    · rw [if_pos hname]
      refine Keeps.congr (keeps_some ?_ fun name args hmem => ?_) ⟨fun _ _ => hname, fun _ => trivial⟩
      · exact (Holding.retry h (Nat.succ_pos room)).congr rfl rfl
      obtain ⟨rfl, rfl⟩ := Output.command.inj (mem_singleton.mp hmem)
      exact Nat.le_trans (Nat.succ_le_succ (length_take_le _ _)) hname
    · rw [if_neg hname]
      exact keeps_none.congr ⟨nofun, fun hlt => absurd (hlt hmark) hname⟩
  · rw [if_neg hmark]
    exact (keeps_some ⟨line, room, h, hcount⟩ namesFit_nil).congr ⟨fun _ hmark' => absurd hmark' hmark, fun _ => trivial⟩

variable {ch : UInt8}

/-- A byte that is stored. -/
theorem store_keeps (h : s.Within) (hch : s.Stores ch) : Keeps (s.store process build ch) (s.Fits ch) := by
  have hlt := h.room
  obtain ⟨line, room, hs⟩ := h
  have hpush := hs.filled.push hch.1
  rw [← hs.counted] at hpush
  have hline : s.line ch = line ++ [ch] := by rw [Server.line, hs.counted, hs.filled.take]
  have hroom : s.curRecvLen + 1 < s.recvBuf.length ↔ 0 < room := by
    rw [hs.counted, hs.filled.length]
    omega
  have hfits : s.Fits ch ↔
      0 < room ∧ (hasEndMark (line ++ [ch]) = true → (line ++ [ch]).findIdx isDelimiter < cmdNameMaxLen) := by
    rw [Server.Fits, hline, hroom]
    exact ⟨fun h => h hch, fun h _ => h⟩
  let stored : Server :=
    { s with recvBuf := s.recvBuf.set s.curRecvLen ch, curRecvLen := s.curRecvLen + 1, lastCh := ch }
  have hstore : s.store process build ch = if (0 : UInt8) ∈ stored.recvBuf then stored.command process else none :=
    if_pos hlt
  rw [hstore, hfits]
  cases room with
  | zero =>
    rw [if_neg fun hzero => absurd (hpush.terminated_iff.mp hzero) (Nat.lt_irrefl 0)]
    exact keeps_none.congr ⟨nofun, fun hpos => absurd hpos.1 (Nat.lt_irrefl 0)⟩
  | succ room =>
    rw [if_pos (hpush.terminated_iff.mpr (Nat.succ_pos room))]
    have hcount : stored.curRecvLen = (line ++ [ch]).length := by
      rw [length_append, ← hs.counted]
      rfl
    exact (command_keeps process hpush hcount).congr ⟨fun h => ⟨Nat.succ_pos room, h⟩, fun h => h.2⟩

/-- A byte that is not stored leaves the line, or takes the last one from it. -/
theorem round_dropped (h : s.Within) (hch : ¬ s.Stores ch) : Keeps (s.round process build ch) True := by
  by_cases hzero : ch = 0
  · rw [Server.round, if_pos hzero]
    exact keeps_some h namesFit_nil
  · obtain ⟨hecho, hkey⟩ : s.echoMode = true ∧ (ch = backspaceKey ∨ ch = delectKey) := by
      by_contra hnot
      exact hch ⟨hzero, hnot⟩
    have hcr : ch ≠ cr := by rcases hkey with rfl | rfl <;> decide
    have hlf : ch ≠ lf := by rcases hkey with rfl | rfl <;> decide
    rw [Server.round, if_neg hzero, if_pos hecho, if_neg (by simp [hcr, hlf]), if_neg hlf, if_pos hkey]
    by_cases hcount : s.curRecvLen ≠ 0
    · rw [if_pos hcount]
      refine keeps_some ?_ (namesFit_echo _)
      obtain ⟨line, room, hs⟩ := h
      rcases eq_nil_or_concat' line with rfl | ⟨front, c, rfl⟩
      · exact absurd hs.counted hcount
      · have hlast : s.curRecvLen - 1 = front.length := by rw [hs.counted, length_append]; rfl
        exact ⟨front, room + 1, by rw [hlast]; exact hs.filled.pop, hlast⟩
    · rw [if_neg hcount]
      exact keeps_some h namesFit_nil

/-- A byte that is stored, whatever is sent back for it. -/
theorem round_stored (hch : s.Stores ch) :
    ∃ echoed, NamesFit echoed ∧
      s.round process build ch = (s.store process build ch).map fun r => (r.1, echoed ++ r.2) := by
  have hplain : s.store process build ch = (s.store process build ch).map fun r => (r.1, [] ++ r.2) := by simp
  rw [Server.round, if_neg hch.1]
  by_cases hecho : s.echoMode = true
  · have hkey : ¬ (ch = backspaceKey ∨ ch = delectKey) := fun hkey => hch.2 ⟨hecho, hkey⟩
    rw [if_pos hecho]
    by_cases hend : ch = cr ∨ (ch = lf ∧ s.lastCh ≠ cr)
    · exact ⟨[.echo [cr, lf]], namesFit_echo _, if_pos hend⟩
    · rw [if_neg hend]
      by_cases hlf : ch = lf
      · exact ⟨[], namesFit_nil, by rw [if_pos hlf]; exact hplain⟩
      · exact ⟨[.echo [ch]], namesFit_echo _, by rw [if_neg hlf, if_neg hkey]; rfl⟩
  · exact ⟨[], namesFit_nil, by rw [if_neg hecho]; exact hplain⟩

/-- **One byte**: the round comes through exactly if the byte fits, and the buffer is within its bounds behind it. -/
theorem round_keeps (h : s.Within) (ch : UInt8) : Keeps (s.round process build ch) (s.Fits ch) := by
  by_cases hch : s.Stores ch
  · obtain ⟨echoed, hechoed, hround⟩ := round_stored process build hch
    rw [hround]
    exact (store_keeps process build h hch).shown hechoed
  · exact (round_dropped process build h hch).congr ⟨fun _ hstores => absurd hstores hch, fun _ => trivial⟩

end

/-! ### Streams -/

/-- The buffer of a server that runs is within its bounds, and so were the names of commands. -/
structure Contained {ε : Type} (trace : List (ε × List Output)) (t : Option Server) : Prop where
  within : ∀ s, t = some s → s.Within
  names : NamesFit (trace.flatMap Prod.snd)

theorem Contained.step {ε : Type} {trace : List (ε × List Output)} {t t' : Option Server} (h : Contained trace t)
    {e : ε} {shown : List Output} (hwithin : ∀ s, t' = some s → s.Within) (hnames : NamesFit shown) :
    Contained (trace ++ [(e, shown)]) t' := by
  refine ⟨hwithin, ?_⟩
  rw [flatMap_append, flatMap_singleton]
  exact h.names.append hnames

def OsFits : Option Server → OsEvent → Prop
  | some s, .recv ch => ch ≠ escKey → s.Fits ch
  | _, _ => True

def BareFits (process : Bytes → Bytes → Bool → Bool) (s : Server) : BareEvent → Prop
  | .push data => (rounds process .bareMetal).Meets Server.Fits { s with lastCh := 0 } (taken data)
  | .echoModeSet _ => True

section

variable (process : Bytes → Bytes → Bool → Bool)

variable {t : Option Server} {s : Server}

theorem os_quiet (h : ∀ s, t = some s → s.Within) :
    ((∃ t' o, some (t, ([] : List Output)) = some (t', o)) ↔ True) ∧
      ∀ t' o, some (t, ([] : List Output)) = some (t', o) → (∀ s, t' = some s → s.Within) ∧ NamesFit o := by
  refine ⟨⟨fun _ => trivial, fun _ => ⟨t, [], rfl⟩⟩, ?_⟩
  rintro _ _ ⟨⟩
  exact ⟨h, namesFit_nil⟩

theorem running_within (h : s.Within) : ∀ s', s.running = some s' → s'.Within := by
  intro s' hs'
  unfold Server.running at hs'
  split at hs'
  · cases hs'
  · cases hs'
    exact h

theorem os_step (h : ∀ s, t = some s → s.Within) (e : OsEvent) :
    ((∃ t' o, (osMachine process).step t e = some (t', o)) ↔ OsFits t e) ∧
      ∀ t' o, (osMachine process).step t e = some (t', o) → (∀ s, t' = some s → s.Within) ∧ NamesFit o := by
  cases t with
  | none => exact os_quiet nofun
  | some s =>
    cases e with
    | recvFailed => exact os_quiet (running_within (h s rfl))
    | recvNothing => exact os_quiet (running_within (h s rfl))
    | echoModeSet echoMode =>
      refine os_quiet ?_
      rintro _ ⟨⟩
      exact (h s rfl).congr rfl rfl
    | deinit =>
      refine os_quiet ?_
      rintro _ ⟨⟩
      exact (h s rfl).congr rfl rfl
    | recv ch =>
      by_cases hesc : ch = escKey
      · have hend : (osMachine process).step (some s) (.recv ch) = some (none, []) := if_pos hesc
        have hfits : OsFits (some s) (.recv ch) ↔ True := ⟨fun _ => trivial, fun _ hne => absurd hesc hne⟩
        rw [hend, hfits]
        exact os_quiet nofun
      · have hstep : (osMachine process).step (some s) (.recv ch) =
            (s.round process .os ch).map fun r => (r.1.running, r.2) := if_neg hesc
        have hround := round_keeps process .os (h s rfl) ch
        have hfits : OsFits (some s) (.recv ch) ↔ s.Fits ch := ⟨fun h => h hesc, fun h _ => h⟩
        rw [hstep, hfits, ← hround.enabled]
        refine ⟨⟨?_, ?_⟩, fun t' o hshown => ?_⟩
        · rintro ⟨t', o, hshown⟩
          obtain ⟨r, hr, _⟩ := map_eq_some_iff.mp hshown
          exact ⟨r, hr⟩
        · rintro ⟨r, hr⟩
          exact ⟨r.1.running, r.2, by rw [hr, map_some]⟩
        · obtain ⟨r, hr, hsame⟩ := map_eq_some_iff.mp hshown
          obtain ⟨rfl, rfl⟩ := Prod.mk.inj hsame
          exact ⟨running_within (hround.after r hr).1, (hround.after r hr).2⟩

theorem rounds_iff (h : s.Within) (data : Bytes) :
    (∃ t trace, (rounds process .bareMetal).run s data = some (t, trace)) ↔
      (rounds process .bareMetal).Meets Server.Fits s data := by
  refine (rounds process .bareMetal).run_iff_meets Server.Fits Server.Within (fun s ch hs => ?_)
    (fun s ch s' o hs hstep => ((round_keeps process .bareMetal hs ch).after (s', o) hstep).1) h
  rw [← (round_keeps process .bareMetal hs ch).enabled, Prod.exists]
  rfl

theorem rounds_contained {t : Server} (h : s.Within) {data : Bytes} {trace : List (UInt8 × List Output)}
    (hrun : (rounds process .bareMetal).run s data = some (t, trace)) :
    t.Within ∧ NamesFit (trace.flatMap Prod.snd) := by
  have hend := (rounds process .bareMetal).run_invariant_always (fun past s => Contained past (some s))
    (fun past s ch s' o hpast hstep => by
      obtain ⟨hwithin, hnames⟩ := (round_keeps process .bareMetal (hpast.within s rfl) ch).after (s', o) hstep
      refine hpast.step ?_ hnames
      rintro _ ⟨⟩
      exact hwithin)
    ⟨by rintro _ ⟨⟩; exact h, namesFit_nil⟩ hrun
  exact ⟨hend.within t rfl, hend.names⟩

theorem bare_step (h : s.Within) (e : BareEvent) :
    ((∃ s' o, (bareMachine process).step s e = some (s', o)) ↔ BareFits process s e) ∧
      ∀ s' o, (bareMachine process).step s e = some (s', o) → s'.Within ∧ NamesFit o := by
  cases e with
  | echoModeSet echoMode =>
    refine ⟨⟨fun _ => trivial, fun _ => ⟨{ s with echoMode := echoMode }, [], rfl⟩⟩, ?_⟩
    rintro _ _ ⟨⟩
    exact ⟨h.congr rfl rfl, namesFit_nil⟩
  | push data =>
    have hstart : { s with lastCh := 0 }.Within := h.congr rfl rfl
    rw [BareFits, ← rounds_iff process hstart]
    refine ⟨⟨?_, ?_⟩, fun s' o hstep => ?_⟩
    · rintro ⟨s', o, hstep⟩
      obtain ⟨r, hr, _⟩ := map_eq_some_iff.mp hstep
      exact ⟨r.1, r.2, hr⟩
    · rintro ⟨t, trace, hrun⟩
      exact ⟨t, trace.flatMap Prod.snd, by simp only [bareMachine, hrun, map_some]⟩
    · obtain ⟨r, hr, hsame⟩ := map_eq_some_iff.mp hstep
      obtain ⟨rfl, rfl⟩ := Prod.mk.inj hsame
      exact rounds_contained process hstart hr

def OsContained (recvBufLen : Nat) (echoMode : Bool) (events : List OsEvent) : Prop :=
  ∀ past, past <+: events → ∃ t trace,
    (osMachine process).run (some (.init recvBufLen echoMode)) past = some (t, trace) ∧ Contained trace t

def BareContained (recvBufLen : Nat) (echoMode : Bool) (events : List BareEvent) : Prop :=
  ∀ past, past <+: events → ∃ t trace,
    (bareMachine process).run (.init recvBufLen echoMode) past = some (t, trace) ∧ Contained trace (some t)

/-- **The input of the AT server stays within its buffers** exactly if every byte fits, in either build, for every
stream, every buffer, both echo modes and whatever commands do to the mode. -/
theorem at_server_within_iff {recvBufLen : Nat} (hpos : 0 < recvBufLen) (echoMode : Bool) (received : List OsEvent)
    (pushed : List BareEvent) :
    (OsContained process recvBufLen echoMode received ↔
      (osMachine process).Meets OsFits (some (.init recvBufLen echoMode)) received) ∧
    (BareContained process recvBufLen echoMode pushed ↔
      (bareMachine process).Meets (BareFits process) (.init recvBufLen echoMode) pushed) := by
  have hinit : ∀ s, some (Server.init recvBufLen echoMode) = some s → s.Within := by
    rintro _ ⟨⟩
    exact within_init hpos echoMode
  constructor
  · refine (osMachine process).along_iff_meets OsFits Contained (fun _ t e h => (os_step process h.within e).1)
      (fun _ t e t' o h hstep => ?_) ⟨hinit, namesFit_nil⟩
    obtain ⟨hwithin, hnames⟩ := (os_step process h.within e).2 t' o hstep
    exact h.step hwithin hnames
  · refine (bareMachine process).along_iff_meets (BareFits process) (fun past s => Contained past (some s))
      (fun _ s e h => (bare_step process (h.within s rfl) e).1) (fun _ s e s' o h hstep => ?_) ⟨hinit, namesFit_nil⟩
    obtain ⟨hwithin, hnames⟩ := (bare_step process (h.within s rfl) e).2 s' o hstep
    refine h.step ?_ hnames
    rintro _ ⟨⟩
    exact hwithin

end

instance : ∀ t e, Decidable (OsFits t e)
  | some s, .recv ch => inferInstanceAs (Decidable (ch ≠ escKey → s.Fits ch))
  | some _, .recvFailed => inferInstanceAs (Decidable True)
  | some _, .recvNothing => inferInstanceAs (Decidable True)
  | some _, .echoModeSet _ => inferInstanceAs (Decidable True)
  | some _, .deinit => inferInstanceAs (Decidable True)
  | none, _ => inferInstanceAs (Decidable True)

instance (process : Bytes → Bytes → Bool → Bool) (s : Server) : ∀ e, Decidable (BareFits process s e)
  | .push data =>
    inferInstanceAs (Decidable ((rounds process .bareMetal).Meets Server.Fits { s with lastCh := 0 } (taken data)))
  | .echoModeSet _ => inferInstanceAs (Decidable True)

def keepMode : Bytes → Bytes → Bool → Bool := fun _ _ echoMode => echoMode

/-- `AT` with a key erased, and the end mark. -/
def lineAt : Bytes := [65, 66, backspaceKey, 84, cr, lf]

theorem at_server_within_line :
    OsContained keepMode 8 true (lineAt.map .recv) ∧ BareContained keepMode 8 true [.push lineAt] := by
  have h := at_server_within_iff keepMode (show 0 < 8 by decide) true (lineAt.map .recv) [.push lineAt]
  exact ⟨h.1.mpr (by decide), h.2.mpr (by decide)⟩

/-- A buffer of four bytes is filled by four; either build then searches it for the end mark. -/
theorem at_server_not_within :
    (¬ ∀ process recvBufLen echoMode events, 0 < recvBufLen → OsContained process recvBufLen echoMode events) ∧
      ¬ ∀ process recvBufLen echoMode events, 0 < recvBufLen → BareContained process recvBufLen echoMode events := by
  constructor
  · intro h
    obtain ⟨t, trace, hrun, _⟩ := h keepMode 4 false ([65, 84, 43, 82].map .recv) (by decide) _ (prefix_refl _)
    have hfault : ((osMachine keepMode).run (some (.init 4 false)) ([65, 84, 43, 82].map .recv)).isNone := by decide
    rw [hrun] at hfault
    cases hfault
  · intro h
    obtain ⟨t, trace, hrun, _⟩ := h keepMode 4 false [.push [65, 84, 43, 82]] (by decide) _ (prefix_refl _)
    have hfault : ((bareMachine keepMode).run (.init 4 false) [.push [65, 84, 43, 82]]).isNone := by decide
    rw [hrun] at hfault
    cases hfault

end Qumios.At
