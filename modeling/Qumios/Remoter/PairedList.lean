import Qumios.Remoter.Filter

/-! The table of paired remotes, over whole runs of pairing messages.

The table is a ring: whatever the remotes, the `n`-th message paired is written to entry
`n % num` (`Ring.index_eq`), so it holds the last `num` messages. These are `num` remotes
as long as no message comes from a remote the table already has; `ble_remoter_pair_recv`
does not look for it, and the second message of a remote takes an entry of its own. -/
namespace Qumios.Remoter
open List

open Run

/-- A pairing message comes in: the time and the record. -/
def pairMachine : Machine Pairing (UInt32 × Slot) Bool := ⟨fun p e => some (pairRecv e.1 p e.2)⟩

/-- A table nothing is paired in. -/
def Pairing.fresh (num : Nat) (timeout : UInt32) : Pairing :=
  ⟨true, timeout, 0, List.replicate num (false, zeroAddr), false, zeroAddr⟩

/-- The addresses paired, in order. -/
def paired (trace : List ((UInt32 × Slot) × Bool)) : List Bytes :=
  (trace.filter (·.2)).map (·.1.2.bleAddr)

theorem paired_snoc (trace : List ((UInt32 × Slot) × Bool)) (e : UInt32 × Slot) (ok : Bool) :
    paired (trace ++ [(e, ok)]) = paired trace ++ if ok then [e.2.bleAddr] else [] := by
  cases ok <;> simp [paired]

/-- Fewer than `num` remotes were paired behind a message of this one. -/
def Recent (num : Nat) (messages : List Bytes) (addr : Bytes) : Prop :=
  ∃ before after, messages = before ++ addr :: after ∧ after.dedup.length < num

/-- The message comes from a remote that is not in the table, or the table has one entry. -/
def Unpaired (p : Pairing) (e : UInt32 × Slot) : Prop := commRecv p e.2 = false ∨ p.addrs.length = 1

instance (p : Pairing) (e : UInt32 × Slot) : Decidable (Unpaired p e) := inferInstanceAs (Decidable (_ ∨ _))

theorem commRecv_iff {p : Pairing} {record : Slot} :
    commRecv p record = true ↔ ∃ i : Nat, p.addrs[i]? = some (true, record.bleAddr) := by
  simp only [commRecv, any_eq_true, Bool.and_eq_true, decide_eq_true_eq, ← mem_iff_getElem?]
  constructor
  · rintro ⟨⟨flag, addr⟩, hmem, rfl, rfl⟩
    exact hmem
  · exact fun hmem => ⟨_, hmem, rfl, rfl⟩

/-- The table holds the last `num` messages, each where its number says. -/
structure Ring (num : Nat) (messages : List Bytes) (p : Pairing) : Prop where
  size : p.addrs.length = num
  entry : ∀ j addr, messages[j]? = some addr → messages.length ≤ j + num → p.addrs[j % num]? = some (true, addr)
  free : ∀ i, messages.length ≤ i → i < num → ∃ addr, p.addrs[i]? = some (false, addr)
  only : ∀ i addr, p.addrs[i]? = some (true, addr) →
    ∃ j, messages[j]? = some addr ∧ messages.length ≤ j + num ∧ j % num = i
  last : 0 < messages.length → p.lastIndex = (messages.length - 1) % num

namespace Ring
variable {num : Nat} {messages : List Bytes} {p : Pairing}

theorem fresh (num : Nat) (timeout : UInt32) : Ring num [] (.fresh num timeout) where
  size := length_replicate
  entry := fun j addr h => by simp at h
  free := fun i _ hi => ⟨zeroAddr, by simp [Pairing.fresh, hi]⟩
  only := fun i addr h => by
    simp only [Pairing.fresh, getElem?_replicate] at h
    split at h <;> simp at h
  last := fun h => by simp at h

section
variable (h : Ring num messages p) (hnum : 0 < num)
include h hnum

theorem slot_lt (n : Nat) : n % num < p.addrs.length := by
  rw [h.size]
  exact Nat.mod_lt n hnum

/-- The first free entry is the next of the ring, and so is the one behind the last written. -/
theorem index_eq :
    (p.addrs.findIdx? fun a => !a.1).getD ((p.lastIndex + 1) % p.addrs.length) = messages.length % num := by
  rcases Nat.lt_or_ge messages.length num with hlt | hge
  · obtain ⟨addr, hfree⟩ := h.free messages.length le_rfl hlt
    obtain ⟨hc, hget⟩ := List.getElem?_eq_some_iff.mp hfree
    have hfind : p.addrs.findIdx? (fun a => !a.1) = some messages.length := by
      refine List.findIdx?_eq_some_iff_getElem.mpr ⟨hc, by rw [hget]; rfl, fun j hj => ?_⟩
      have hentry := h.entry j _ (List.getElem?_eq_getElem hj) (by omega)
      rw [Nat.mod_eq_of_lt (by omega)] at hentry
      rw [(List.getElem?_eq_some_iff.mp hentry).2]
      exact Bool.false_ne_true
    rw [hfind, Option.getD_some, Nat.mod_eq_of_lt hlt]
  · have hnone : p.addrs.findIdx? (fun a => !a.1) = none := by
      refine List.findIdx?_eq_none_iff.mpr fun a ha => ?_
      obtain ⟨i, hi, rfl⟩ := List.mem_iff_getElem.mp ha
      -- the newest message written to entry `i`
      obtain ⟨j, hj, hjnum, hmod⟩ : ∃ j, j < messages.length ∧ messages.length ≤ j + num ∧ j % num = i := by
        have hi' : i < num := h.size ▸ hi
        refine ⟨i + num * ((messages.length - 1 - i) / num), ?_, ?_, ?_⟩
        · have := Nat.mul_div_le (messages.length - 1 - i) num
          omega
        · have := Nat.lt_mul_div_succ (messages.length - 1 - i) hnum
          rw [Nat.mul_add, Nat.mul_one] at this
          omega
        · rw [Nat.add_mul_mod_self_left, Nat.mod_eq_of_lt hi']
      have hentry := h.entry j _ (List.getElem?_eq_getElem hj) hjnum
      rw [hmod] at hentry
      rw [(List.getElem?_eq_some_iff.mp hentry).2]
      rfl
    rw [hnone, Option.getD_none, h.last (by omega), h.size, Nat.mod_add_mod, Nat.sub_add_cancel (by omega)]

theorem write (addr : Bytes) :
    Ring num (messages ++ [addr])
      { p with lastIndex := messages.length % num, addrs := p.addrs.set (messages.length % num) (true, addr) } where
  size := by simpa using h.size
  entry := by
    intro j addr' hj hnew
    rw [List.length_append, List.length_singleton] at hnew
    rcases Nat.lt_or_ge j messages.length with hlt | hge
    · rw [List.getElem?_append_left hlt] at hj
      have hne : messages.length % num ≠ j % num := by
        intro heq
        have := Nat.sub_mod_eq_zero_of_mod_eq heq
        rw [Nat.mod_eq_of_lt (by omega)] at this
        omega
      rw [List.getElem?_set_ne hne]
      exact h.entry j addr' hj (by omega)
    · obtain ⟨hlen, hget⟩ := List.getElem?_eq_some_iff.mp hj
      obtain rfl : j = messages.length := by simp at hlen; omega
      rw [List.getElem_concat_length rfl] at hget
      rw [List.getElem?_set_self (h.slot_lt hnum _), hget]
  free := by
    intro i hi hlt
    rw [List.length_append, List.length_singleton] at hi
    rw [List.getElem?_set_ne (by rw [Nat.mod_eq_of_lt] <;> omega)]
    exact h.free i (by omega) hlt
  only := by
    intro i addr' hi
    rcases eq_or_ne (messages.length % num) i with rfl | hne
    · rw [List.getElem?_set_self (h.slot_lt hnum _)] at hi
      refine ⟨messages.length, ?_, by simp; omega, rfl⟩
      simp_all
    · rw [List.getElem?_set_ne hne] at hi
      obtain ⟨j, hj, hnew, hmod⟩ := h.only i addr' hi
      have hlt := (List.getElem?_eq_some_iff.mp hj).1
      refine ⟨j, by rwa [List.getElem?_append_left hlt], ?_, hmod⟩
      have : messages.length ≠ j + num := by
        intro heq
        rw [heq, Nat.add_mod_right] at hne
        exact hne hmod
      rw [List.length_append, List.length_singleton]
      omega
  last := fun _ => by simp
end

end Ring

/-- The messages of one remote are at least a table apart. -/
def Spread (num : Nat) (messages : List Bytes) : Prop :=
  ∀ j k addr, j < k → k < j + num → messages[j]? = some addr → messages[k]? ≠ some addr

/-- What the run keeps: the ring, with no remote in it twice. -/
structure Listed (num : Nat) (messages : List Bytes) (p : Pairing) : Prop extends Ring num messages p where
  spread : Spread num messages

namespace Listed
variable {num : Nat} {messages : List Bytes} {p : Pairing}

/-- A message that is paired is the next of the ring; one that is not leaves the table alone. -/
theorem pairRecv_cases (h : Ring num messages p) (hnum : 0 < num) (now : UInt32) (record : Slot) :
    (pairRecv now p record).2 = false ∧ (pairRecv now p record).1.addrs = p.addrs ∧
        (pairRecv now p record).1.lastIndex = p.lastIndex ∨
      pairRecv now p record = ({ p with
        lastIndex := messages.length % num
        addrs := p.addrs.set (messages.length % num) (true, record.bleAddr) }, true) := by
  unfold pairRecv
  split_ifs
  · exact .inl ⟨rfl, rfl, rfl⟩
  · exact .inl ⟨rfl, rfl, rfl⟩
  · rw [h.index_eq hnum]
    exact .inr rfl

variable {now : UInt32} {record : Slot}

section
variable (h : Listed num messages p)
include h

theorem spread_append (hc : Unpaired p (now, record)) : Spread num (messages ++ [record.bleAddr]) := by
  intro j k addr hjk hk hj hsame
  have hj' : messages[j]? = some addr := by
    have := (List.getElem?_eq_some_iff.mp hsame).1
    rwa [List.getElem?_append_left (by simp at this; omega)] at hj
  rcases Nat.lt_or_ge k messages.length with hlt | hge
  · rw [List.getElem?_append_left hlt] at hsame
    exact h.spread j k addr hjk hk hj' hsame
  · have hlen := (List.getElem?_eq_some_iff.mp hsame).1
    obtain rfl : k = messages.length := by simp at hlen; omega
    obtain rfl : record.bleAddr = addr := by simpa using hsame
    rcases hc with hnew | hone
    · have := commRecv_iff.mpr ⟨_, h.entry j _ hj' (by omega)⟩
      rw [hnew] at this
      cases this
    · rw [h.size] at hone
      omega

theorem step (hnum : 0 < num) (hc : Unpaired p (now, record)) : Listed num
      (messages ++ if (pairRecv now p record).2 then [record.bleAddr] else []) (pairRecv now p record).1 := by
  rcases pairRecv_cases h.toRing hnum now record with ⟨hno, haddrs, hlast⟩ | heq
  · rw [hno, if_neg Bool.false_ne_true, append_nil]
    exact ⟨⟨haddrs ▸ h.size, haddrs ▸ h.entry, haddrs ▸ h.free, haddrs ▸ h.only, hlast ▸ h.last⟩, h.spread⟩
  · rw [heq, if_pos rfl]
    exact ⟨h.write hnum _, h.spread_append hc⟩

theorem distinct {i k : Nat} {addr : Bytes} (hi : p.addrs[i]? = some (true, addr))
    (hk : p.addrs[k]? = some (true, addr)) : i = k := by
  obtain ⟨j, hj, hjnum, rfl⟩ := h.only i addr hi
  obtain ⟨l, hl, hlnum, rfl⟩ := h.only k addr hk
  have hjlt := (List.getElem?_eq_some_iff.mp hj).1
  have hllt := (List.getElem?_eq_some_iff.mp hl).1
  rcases Nat.lt_trichotomy j l with hlt | rfl | hlt
  · exact absurd hl (h.spread j l addr hlt (by omega) hj)
  · rfl
  · exact absurd hj (h.spread l j addr hlt (by omega) hl)

/-- A remote that is recent is so close to the end that the table still has its message: `num` messages
behind it would be `num` remotes. -/
theorem recent (hr : Recent num messages record.bleAddr) : commRecv p record = true := by
  obtain ⟨before, after, rfl, hfew⟩ := hr
  have hshort : after.length < num := by
    by_contra hlong
    have hnodup : (after.drop (after.length - num)).Nodup := by
      refine nodup_iff_getElem?_ne_getElem?.mpr fun j k hjk hk heq => ?_
      rw [length_drop] at hk
      rw [getElem?_drop, getElem?_drop] at heq
      have hat : ∀ n, (before ++ record.bleAddr :: after)[before.length + 1 + n]? = after[n]? := fun n => by
        rw [getElem?_append_right (by omega), Nat.add_assoc, Nat.add_sub_cancel_left, Nat.add_comm 1 n,
          getElem?_cons_succ]
      obtain ⟨addr, hsome⟩ : ∃ addr, after[after.length - num + k]? = some addr :=
        ⟨_, getElem?_eq_getElem (by omega)⟩
      exact h.spread (before.length + 1 + (after.length - num + j)) (before.length + 1 + (after.length - num + k)) addr
        (by omega) (by omega) (by rw [hat, heq, hsome]) (by rw [hat, hsome])
    have hle := (hnodup.subperm fun a ha => mem_dedup.mpr (mem_of_mem_drop ha)).length_le
    rw [length_drop] at hle
    omega
  refine commRecv_iff.mpr ⟨_, h.entry before.length _ (by simp) ?_⟩
  simp only [length_append, length_cons]
  omega

/-- With one entry, a remote paired again takes its own place. -/
theorem again (hnum : 0 < num) {other : Slot} (hc : Unpaired p (now, record)) (hpaired : commRecv p record = true)
    (hother : commRecv p other = true) : commRecv (pairRecv now p record).1 other = true := by
  rcases hc with hnew | hone
  · rw [hnew] at hpaired
    cases hpaired
  · obtain ⟨i, hi⟩ := commRecv_iff.mp hpaired
    obtain ⟨k, hk⟩ := commRecv_iff.mp hother
    obtain rfl : i = 0 := by have := (List.getElem?_eq_some_iff.mp hi).1; omega
    obtain rfl : k = 0 := by have := (List.getElem?_eq_some_iff.mp hk).1; omega
    have hsame : record.bleAddr = other.bleAddr := by
      rw [hi] at hk
      exact congrArg Prod.snd (Option.some.inj hk)
    rcases pairRecv_cases h.toRing hnum now record with ⟨_, haddrs, _⟩ | heq
    · exact commRecv_iff.mpr ⟨0, by rw [haddrs, hk]⟩
    · have hslot := h.slot_lt hnum messages.length
      rw [heq]
      exact commRecv_iff.mpr ⟨messages.length % num, by rw [List.getElem?_set_self hslot, hsame]⟩
end

end Listed

/-- **The list of paired remotes**: in every run of pairing messages that each come from a remote not in
the table, or for a table of one entry, no address is in two entries, the `num` remotes paired last are
accepted, and to pair a remote again removes no other one. Until the deadline every message is paired. -/
theorem paired_list {num : Nat} (hnum : 0 < num) {timeout : UInt32} {events : List (UInt32 × Slot)} {p : Pairing}
    {trace : List ((UInt32 × Slot) × Bool)} (hc : pairMachine.Meets Unpaired (.fresh num timeout) events)
    (hr : pairMachine.run (.fresh num timeout) events = some (p, trace)) :
    (∀ (i k : Nat) addr, p.addrs[i]? = some (true, addr) → p.addrs[k]? = some (true, addr) → i = k) ∧
    (∀ record, Recent num (paired trace) record.bleAddr → commRecv p record = true) ∧
    (∀ now record, Unpaired p (now, record) → commRecv p record = true →
      ∀ other, commRecv p other = true → commRecv (pairRecv now p record).1 other = true) ∧
    ∀ now record, p.enable = true → timeLeft now p.timeout ≠ 0 → (pairRecv now p record).2 = true := by
  have hlisted : Listed num (paired trace) p := by
    refine pairMachine.run_invariant Unpaired (fun trace p => Listed num (paired trace) p)
      (fun past s e s' o h hc hs => ?_) ⟨Ring.fresh num timeout, fun j k addr _ _ hj => by simp [paired] at hj⟩ hc hr
    obtain ⟨rfl, rfl⟩ := Prod.mk.inj (Option.some.inj hs)
    rw [paired_snoc]
    exact h.step hnum hc
  exact ⟨fun _ _ _ => hlisted.distinct, fun _ => hlisted.recent,
    fun _ _ hc hpaired _ => hlisted.again hnum hc hpaired,
    fun _ _ hon hleft => by simp [pairRecv, hon, hleft]⟩

/-- A record of a remote. -/
def remote (id : UInt8) : Slot := { Slot.zero with bleAddr := [id, 0, 0, 0, 0, 1] }

/-- Three remotes, one after the other. -/
def threeRemotes : List (UInt32 × Slot) := [(clock 1, remote 1), (clock 2, remote 2), (clock 3, remote 3)]

theorem paired_list_three : ∃ p trace, pairMachine.run (.fresh 2 (clock 60000)) threeRemotes = some (p, trace) ∧
    commRecv p (remote 2) = true := by
  refine ⟨_, _, rfl, ?_⟩
  exact (@paired_list 2 (Nat.succ_pos 1) (clock 60000) threeRemotes _ _ (by decide +kernel) rfl).2.1 (remote 2)
    ⟨[(remote 1).bleAddr], [(remote 3).bleAddr], by decide +kernel, by decide +kernel⟩

/-- Two entries, and the second remote sends its message again: it is in both, and the first one, which
was paired before it, is accepted no more. -/
theorem paired_twice : ∃ p trace, pairMachine.run (.fresh 2 (clock 60000))
      [(clock 1, remote 1), (clock 2, remote 2), (clock 3, remote 2)] = some (p, trace) ∧
    p.addrs = [(true, (remote 2).bleAddr), (true, (remote 2).bleAddr)] ∧
    Recent 2 (paired trace) (remote 1).bleAddr ∧ commRecv p (remote 1) = false :=
  ⟨_, _, rfl, rfl, ⟨[], [_, _], rfl, by decide +kernel⟩, rfl⟩

end Qumios.Remoter
