import Qumios.Ble.Common

/-! The access point a phone sends: `apinfo_handler` of `qm_ble_export.c`.

A message is a sequence of attributes, each a type, a tag and a value; most values carry their
length in two bytes. The handler walks over it with an index of eight bits and copies the values
into a record. `Parse` keeps, besides the record, which bytes of the message were read and how
many bytes were written to each field.

The checks differ from tag to tag. Those of the strings are complete. That of the BSSID does not
count the two bytes of its length, and the token is copied without a check against the end of
the message; and in a message of 256 bytes the index never passes the end. The handler returns and
stays inside the message exactly where neither matters: at the attributes it comes to (`Reaches`),
and if an error ends the loop where the index cannot. What it writes fits into the record always. -/
namespace Qumios.Ble.Apinfo
open Buffer List Relation

/-! ### The record -/

/-- The fields of `qm_ble_apinfo_t` that the handler writes. -/
inductive Field where
  | ssid
  | pw
  | bssid
  | apptokenLen
  | apptoken
  | regionType
  | regionId
  | regionUrl
  deriving DecidableEq, Repr

/-- `MAX_QM_TOKEN_PARAM_LEN`. -/
def maxTokenParamLen : Nat := 64
/-- `MAX_QM_URL_LEN`. -/
def maxUrlLen : Nat := 64
/-- `QM_BLE_UTF8_MAX_SSID`. -/
def maxSsid : Nat := 32
/-- `QM_BLE_UTF8_MAX_PASSWORD`. -/
def maxPassword : Nat := 64

/-- The bytes a field holds. -/
def Field.capacity : Field → Nat
  | .ssid => 32 + 1
  | .pw => 64 * 2 + 1
  | .bssid => 6
  | .apptokenLen => 1
  | .apptoken => maxTokenParamLen
  | .regionType => 1
  | .regionId => 4
  | .regionUrl => maxUrlLen

/-- `qm_ble_apinfo_t`, as the memory of its fields. -/
abbrev Record := Field → Bytes

def Record.zero : Record := fun f => List.replicate f.capacity 0

def ssidReady : UInt8 := 0x01
def passwordReady : UInt8 := 0x02
def bssidReady : UInt8 := 0x04
def apptokenReady : UInt8 := 0x08
def regionIdReady : UInt8 := 0x10
def regionMqttUrlReady : UInt8 := 0x20
def regionTypeReady : UInt8 := 0x40
def basicReady : UInt8 := ssidReady ||| passwordReady

def ssidId : UInt8 := 0xF5
def pwdId : UInt8 := 0xF4
def bssidId : UInt8 := 0xF3
def tokenId : UInt8 := 0xF2
def regionId : UInt8 := 0xEF
def mqttUrlId : UInt8 := 0xEE
def regionTypeId : UInt8 := 0xED

/-! ### The handler -/

/-- The variables of the handler, with what it has read of the message (from where, how many bytes) and
written to the record. -/
structure Parse where
  idx : Nat := 0
  apinfo : Record := Record.zero
  readyFlag : UInt8 := 0
  reads : List (Nat × Nat) := []
  writes : List (Field × Nat) := []

/-- The difference of two `uint32_t`. The literal stands in front, so that the sum does not unfold to
successors. -/
def sub32 (a b : Nat) : Nat := (2 ^ 32 + a - b) % 2 ^ 32

def len16 (hi lo : UInt8) : Nat := hi.toNat * 256 + lo.toNat

namespace Parse

/-- `n` bytes of the message are read, and the index goes on over them. -/
def advance (n : Nat) (s : Parse) : Parse :=
  { s with idx := (s.idx + n) % 256, reads := s.reads ++ [(s.idx, n)] }

def write (f : Field) (bytes : Bytes) (s : Parse) : Parse :=
  { s with apinfo := Function.update s.apinfo f (splice (s.apinfo f) 0 bytes)
           writes := s.writes ++ [(f, bytes.length)] }

def ready (flag : UInt8) (s : Parse) : Parse := { s with readyFlag := s.readyFlag ||| flag }

end Parse

section Handler
variable (data : Nat → UInt8) (length : Nat)

/-- The bytes at `&data[idx]`. -/
def bytesAt (s : Parse) (n : Nat) : Bytes := (List.range' s.idx n).map data

/-- `len = data[idx++] << 8; len += data[idx++];` -/
def readLen (s : Parse) : Nat × Parse := (len16 (data s.idx) (data (s.advance 1).idx), (s.advance 1).advance 1)

def copyValue (f : Field) (flag : UInt8) (len : Nat) (s : Parse) : Parse :=
  ((s.write f (bytesAt data s len)).ready flag).advance len

/-- The attributes of a string: SSID, password and MQTT URL. -/
def stringAttr (f : Field) (flag : UInt8) (maxLen : Nat) (typeId : UInt8) (s : Parse) : Parse × Option Int :=
  if typeId ≠ 11 then (s, some (-1))
  else if sub32 length s.idx ≤ 3 then (s, some (-1))
  else
    let (len, s) := readLen data s
    if len > maxLen then (s, some (-1))
    else if sub32 length s.idx < len then (s, some (-1))
    else (copyValue data f flag len s, none)

def ssidAttr := stringAttr data length .ssid ssidReady maxSsid
def pwdAttr := stringAttr data length .pw passwordReady maxPassword
def mqttUrlAttr := stringAttr data length .regionUrl regionMqttUrlReady maxUrlLen

/-- The check in front counts the six bytes, but not the two of their length. -/
def bssidAttr (typeId : UInt8) (s : Parse) : Parse × Option Int :=
  if typeId ≠ 14 then (s, some (-1))
  else if sub32 length s.idx < 6 then (s, some (-1))
  else
    let (len, s) := readLen data s
    if len ≠ 6 then (s, some (-1)) else (copyValue data .bssid bssidReady 6 s, none)

/-- Nothing is asked of the end of the message before the token is copied. -/
def tokenAttr (typeId : UInt8) (s : Parse) : Parse × Option Int :=
  if typeId ≠ 14 then (s, some (-1))
  else if sub32 length s.idx < 3 then (s, some (-1))
  else
    let (len, s) := readLen data s
    if len > maxTokenParamLen then (s, some (-1))
    else (copyValue data .apptoken apptokenReady len (s.write .apptokenLen [UInt8.ofNat len]), none)

def byteAttr (f : Field) (flag : UInt8) (stored : UInt8 → Bytes) (typeId : UInt8) (s : Parse) : Parse × Option Int :=
  if typeId ≠ 2 then (s, some (-1))
  else if sub32 length s.idx < 1 then (s, some (-1))
  else (((s.write f (stored (data s.idx))).ready flag).advance 1, none)

def regionIdAttr := byteAttr data length .regionId regionIdReady fun b => [b, 0, 0, 0]
def regionTypeAttr := byteAttr data length .regionType regionTypeReady fun b => [b]

/-- The `switch` over the tags. -/
def attrSwitch (typeId attrId : UInt8) (s : Parse) : Parse × Option Int :=
  if attrId = ssidId then ssidAttr data length typeId s
  else if attrId = pwdId then pwdAttr data length typeId s
  else if attrId = bssidId then bssidAttr data length typeId s
  else if attrId = tokenId then tokenAttr data length typeId s
  else if attrId = regionId then regionIdAttr data length typeId s
  else if attrId = mqttUrlId then mqttUrlAttr data length typeId s
  else if attrId = regionTypeId then regionTypeAttr data length typeId s
  else (s, some (-2))

def round (s : Parse) : Parse × Option Int :=
  if sub32 length s.idx < 2 then (s, some (-1))
  else attrSwitch data length (data s.idx) (data (s.advance 1).idx) ((s.advance 1).advance 1)

/-- `while(idx < length)`; `none` if it is not left within so many rounds. -/
def loop : Nat → Parse → Option (Parse × Int)
  | 0, _ => none
  | rounds + 1, s =>
    if s.idx < length then
      match round data length s with
      | (s, some err) => some (s, err)
      | (s, none) => loop rounds s
    else some (s, 0)

end Handler

/-- What the handler leaves, returns and reports. -/
structure Outcome where
  parse : Parse
  errCode : Int
  notified : Bool

/-- `apinfo_handler`. -/
def apinfoHandler (rounds : Nat) (data : Option (Nat → UInt8)) (length : Nat) : Option Outcome :=
  let finish (r : Parse × Int) : Outcome := ⟨r.1, r.2, r.1.readyFlag &&& basicReady ≠ 0⟩
  match data with
  | none => some (finish ({}, -1))
  | some data => if length < 2 then some (finish ({}, -1)) else (loop data length rounds {}).map finish

/-- **What a round does** to the variables are reads and writes, and every write fits into its field. -/
theorem round_keeps {data : Nat → UInt8} {length : Nat} {P : Parse → Prop} (hadvance : ∀ s n, P s → P (s.advance n))
    (hwrite : ∀ s f (bytes : Bytes), bytes.length ≤ f.capacity → P s → P (s.write f bytes))
    (hready : ∀ s flag, P s → P (s.ready flag)) {s : Parse} (h : P s) : P (round data length s).1 := by
  have htwo {s : Parse} (h : P s) : P ((s.advance 1).advance 1) := hadvance _ 1 (hadvance _ 1 h)
  have hcopy {f : Field} (flag : UInt8) {len : Nat} (hlen : len ≤ f.capacity) {s : Parse} (h : P s) :
      P (copyValue data f flag len s) := by
    refine hadvance _ len (hready _ flag (hwrite _ f _ ?_ h))
    rw [bytesAt, length_map, length_range']
    exact hlen
  have htext {f : Field} (flag : UInt8) {max : Nat} (hmax : max ≤ f.capacity) (typeId : UInt8) {s : Parse} (h : P s) :
      P (stringAttr data length f flag max typeId s).1 := by
    unfold stringAttr
    dsimp only [readLen]
    repeat' split
    · exact h
    · exact h
    · exact htwo h
    · exact htwo h
    · exact hcopy flag (by omega) (htwo h)
  have hbyte {f : Field} (flag : UInt8) {stored : UInt8 → Bytes} (hstored : ∀ b, (stored b).length ≤ f.capacity)
      (typeId : UInt8) {s : Parse} (h : P s) : P (byteAttr data length f flag stored typeId s).1 := by
    unfold byteAttr
    repeat' split
    · exact h
    · exact h
    · exact hadvance _ 1 (hready _ flag (hwrite _ f _ (hstored _) h))
  unfold round attrSwitch
  repeat' split
  · exact h
  · exact htext _ (by decide) _ (htwo h)
  · exact htext _ (by decide) _ (htwo h)
  · unfold bssidAttr
    dsimp only [readLen]
    repeat' split
    · exact htwo h
    · exact htwo h
    · exact htwo (htwo h)
    · exact hcopy _ (Nat.le_refl 6) (htwo (htwo h))
  · unfold tokenAttr
    dsimp only [readLen]
    repeat' split
    · exact htwo h
    · exact htwo h
    · exact htwo (htwo h)
    · next hlen => exact hcopy _ (Nat.le_of_not_lt hlen) (hwrite _ .apptokenLen _ (Nat.le_refl 1) (htwo (htwo h)))
  · refine hbyte _ (fun _ => ?_) _ (htwo h)
    exact Nat.le_refl 4
  · exact htext _ (by decide) _ (htwo h)
  · refine hbyte _ (fun _ => ?_) _ (htwo h)
    exact Nat.le_refl 1
  · exact htwo h

/-! ### Writing -/

/-- What was written fits, and the fields have their sizes. -/
structure Fitting (s : Parse) : Prop where
  writes : ∀ w ∈ s.writes, w.2 ≤ w.1.capacity
  sizes : ∀ f, (s.apinfo f).length = f.capacity

namespace Fitting
variable {s : Parse}

theorem advance (h : Fitting s) (n : Nat) : Fitting (s.advance n) := ⟨h.writes, h.sizes⟩

theorem ready (h : Fitting s) (flag : UInt8) : Fitting (s.ready flag) := ⟨h.writes, h.sizes⟩

variable {f : Field}

theorem write (h : Fitting s) {bytes : Bytes} (hlen : bytes.length ≤ f.capacity) :
    Fitting (s.write f bytes) where
  writes := forall_mem_append.mpr ⟨h.writes, forall_mem_singleton.mpr hlen⟩
  sizes g := by
    by_cases hg : g = f
    · subst hg
      show (Function.update s.apinfo g _ g).length = _
      rw [Function.update_self, length_splice _ _ _ (by rw [h.sizes]; omega), h.sizes]
    · show (Function.update s.apinfo f _ g).length = _
      rw [Function.update_of_ne hg, h.sizes]

theorem round (h : Fitting s) (data : Nat → UInt8) (length : Nat) : Fitting (round data length s).1 :=
  round_keeps (P := Fitting) (fun _ n hs => hs.advance n) (fun _ _ _ hlen hs => hs.write hlen)
    (fun _ flag hs => hs.ready flag) h

end Fitting

/-! ### The rounds of a message -/

section Rounds
variable (data : Nat → UInt8) (length : Nat)

/-- A round that takes an attribute. -/
def Step (s s' : Parse) : Prop := s.idx < length ∧ round data length s = (s', none)

/-- The states in which the loop comes to its condition. -/
def Reaches (s : Parse) : Prop := ReflTransGen (Step data length) {} s

/-- The loop is left: with an error of the round, or at the end of the message. -/
inductive Leaves (s : Parse) : Parse → Int → Prop where
  | error {s' : Parse} {err : Int} (hmore : s.idx < length) (hround : round data length s = (s', some err)) :
      Leaves s s' err
  | finished (hend : length ≤ s.idx) : Leaves s s 0

variable {data length} {s s' t : Parse} {err : Int}

theorem loop_leaves {rounds : Nat} (h : loop data length rounds s = some (s', err)) :
    ∃ t, ReflTransGen (Step data length) s t ∧ Leaves data length t s' err := by
  induction rounds generalizing s with
  | zero => cases h
  | succ rounds ih =>
    rw [loop] at h
    by_cases hmore : s.idx < length
    · rw [if_pos hmore] at h
      cases hr : round data length s with
      | mk next r =>
        rw [hr] at h
        cases r with
        | none =>
          obtain ⟨t, hreaches, hleaves⟩ := ih h
          exact ⟨t, .head ⟨hmore, hr⟩ hreaches, hleaves⟩
        | some err' =>
          cases h
          exact ⟨s, .refl, .error hmore hr⟩
    · rw [if_neg hmore] at h
      obtain ⟨rfl, rfl⟩ := Prod.mk.inj (Option.some.inj h)
      exact ⟨s, .refl, .finished (Nat.le_of_not_lt hmore)⟩

theorem loop_of_leaves (hreaches : ReflTransGen (Step data length) s t) (h : Leaves data length t s' err) :
    ∃ rounds, loop data length rounds s = some (s', err) := by
  induction hreaches using ReflTransGen.head_induction_on with
  | refl =>
    refine ⟨1, ?_⟩
    cases h with
    | error hmore hround => rw [loop, if_pos hmore, hround]
    | finished hend => rw [loop, if_neg (Nat.not_lt.mpr hend)]
  | head hstep _ ih =>
    obtain ⟨rounds, hloop⟩ := ih
    exact ⟨rounds + 1, by rw [loop, if_pos hstep.1, hstep.2]; exact hloop⟩

theorem Leaves.stuck (h : Leaves data length t s' err) : ¬ Step data length t s := by
  rintro ⟨hmore, hround⟩
  cases h with
  | error _ hround' => exact nomatch (Prod.mk.inj (hround.symm.trans hround')).2
  | finished hend => omega

/-- Every state reached lies in front of the one in which the loop is left. -/
theorem Leaves.behind (h : Leaves data length t s' err) (ht : Reaches data length t) (hs : Reaches data length s) :
    ReflTransGen (Step data length) s t := by
  have hunique : Relator.RightUnique (Step data length) :=
    fun _ _ _ hb hc => (Prod.mk.inj (hb.2.symm.trans hc.2)).1
  obtain hst | hts := ReflTransGen.total_of_right_unique hunique hs ht
  · exact hst
  · obtain rfl | ⟨u, hstep, -⟩ := hts.cases_head
    · exact .refl
    · exact absurd hstep h.stuck

variable (data length) in
theorem round_reads_mem {r : Nat × Nat} (h : r ∈ s.reads) : r ∈ (round data length s).1.reads :=
  round_keeps (P := fun s => r ∈ s.reads) (fun _ _ h => mem_append_left _ h) (fun _ _ _ _ h => h) (fun _ _ h => h) h

theorem Leaves.reads_mem (h : Leaves data length t s' err) (hsteps : ReflTransGen (Step data length) s t)
    {r : Nat × Nat} (hr : r ∈ s.reads) : r ∈ s'.reads := by
  induction hsteps using ReflTransGen.head_induction_on with
  | refl =>
    cases h with
    | error _ hround =>
      have hmem := round_reads_mem data length hr
      rwa [hround] at hmem
    | finished => exact hr
  | head hstep _ ih =>
    have hmem := round_reads_mem data length hr
    rw [hstep.2] at hmem
    exact ih hmem

/-- A property of the state that a round keeps holds wherever the loop comes. -/
theorem Reaches.keeps {P : Parse → Prop} (h : Reaches data length s) (hinit : P {})
    (hround : ∀ s, P s → P (round data length s).1) : P s := by
  induction h with
  | refl => exact hinit
  | tail _ hstep ih =>
    have hnext := hround _ ih
    rwa [hstep.2] at hnext

theorem Reaches.idx_lt (h : Reaches data length s) : s.idx < 256 :=
  h.keeps (P := fun s => s.idx < 256) (by decide) fun _ hs =>
    round_keeps (P := fun s => s.idx < 256) (fun _ _ _ => Nat.mod_lt _ (by decide)) (fun _ _ _ _ h => h) (fun _ _ h => h) hs

end Rounds

/-! ### Reading -/

theorem sub32_eq {a b : Nat} (h : b ≤ a) (ha : a < 2 ^ 32) : sub32 a b = a - b := by
  simp only [sub32]
  omega

section Conditions
variable (data : Nat → UInt8) (length i : Nat)

/-- A BSSID at position `i` that passes the check ends inside the message with its length. The positions are
those of an index of eight bits. -/
def BssidInside : Prop :=
  data ((i + 1) % 256) = bssidId → (i + 2) % 256 + 6 ≤ length →
    len16 (data ((i + 2) % 256)) (data ((i + 3) % 256)) = 6 → (i + 4) % 256 + 6 ≤ length

/-- A token at position `i` that passes the checks ends inside the message. -/
def TokenInside : Prop :=
  data ((i + 1) % 256) = tokenId → (i + 2) % 256 + 3 ≤ length →
    len16 (data ((i + 2) % 256)) (data ((i + 3) % 256)) ≤ maxTokenParamLen →
      (i + 4) % 256 + len16 (data ((i + 2) % 256)) (data ((i + 3) % 256)) ≤ length

def AttrInside : Prop := i + 2 ≤ length → data i = 14 → BssidInside data length i ∧ TokenInside data length i

/-- The attributes the handler comes to end inside the message; and where the index cannot pass the end, one of
them is refused. -/
structure Bounded : Prop where
  inside : ∀ s, Reaches data length s → s.idx < length → AttrInside data length s.idx
  ends : length ≤ 255 ∨ ∃ s, Reaches data length s ∧ s.idx < length ∧ (round data length s).2 ≠ none

end Conditions

/-- From one state to the other nothing outside the message was read, and the index did not pass its end. -/
structure Within (length : Nat) (s s' : Parse) : Prop where
  mono : length ≤ 255 → s.idx ≤ s'.idx
  inside : s'.idx ≤ length
  reads : ∀ r ∈ s'.reads, r ∈ s.reads ∨ r.1 + r.2 ≤ length

namespace Within
variable {length : Nat} {s s' s'' : Parse}

theorem refl (h : s.idx ≤ length) : Within length s s := ⟨fun _ => Nat.le_refl _, h, fun _ hr => .inl hr⟩

section
variable (h : Within length s s')
include h

theorem trans (h' : Within length s' s'') : Within length s s'' where
  mono hshort := (h.mono hshort).trans (h'.mono hshort)
  inside := h'.inside
  reads r hr := (h'.reads r hr).elim (h.reads r) .inr

theorem write (f : Field) (bytes : Bytes) : Within length s (s'.write f bytes) :=
  ⟨h.mono, h.inside, h.reads⟩

theorem ready (flag : UInt8) : Within length s (s'.ready flag) :=
  ⟨h.mono, h.inside, h.reads⟩
end

end Within

section Reading
variable {data : Nat → UInt8} {length : Nat} {s : Parse}

theorem advance_idx (hlength : length ≤ 255) {n : Nat} (h : s.idx + n ≤ length) : (s.advance n).idx = s.idx + n :=
  Nat.mod_eq_of_lt (by omega)

theorem advance_advance_idx : ((s.advance 1).advance 1).idx = (s.idx + 2) % 256 := Nat.mod_add_mod (s.idx + 1) 256 1

theorem within_advance {n : Nat} (h : s.idx + n ≤ length) : Within length s (s.advance n) where
  mono hshort := by
    rw [advance_idx hshort h]
    omega
  inside := (Nat.mod_le _ _).trans h
  reads := forall_mem_append.mpr ⟨fun r hr => .inl hr, forall_mem_singleton.mpr (.inr h)⟩

theorem within_two (h : s.idx + 2 ≤ length) : Within length s ((s.advance 1).advance 1) :=
  (within_advance (by omega)).trans (within_advance (show (s.idx + 1) % 256 + 1 ≤ length by omega))

variable {f : Field} {flag typeId : UInt8}

theorem within_copyValue {len : Nat} (h : s.idx + len ≤ length) : Within length s (copyValue data f flag len s) :=
  (((Within.refl (by omega)).write f _).ready flag).trans (within_advance h)

variable (hlength : length < 2 ^ 32)
include hlength

section
variable (h : s.idx ≤ length)
include h

theorem within_stringAttr {maxLen : Nat} : Within length s (stringAttr data length f flag maxLen typeId s).1 := by
  unfold stringAttr
  rw [sub32_eq h hlength]
  split
  · exact .refl h
  split
  · exact .refl h
  next hroom =>
  have hread : Within length s ((s.advance 1).advance 1) := within_two (by omega)
  simp only [readLen, sub32_eq hread.inside hlength]
  split
  · exact hread
  split
  · exact hread
  · have := hread.inside
    exact hread.trans (within_copyValue (by omega))

theorem within_byteAttr {stored : UInt8 → Bytes} :
    Within length s (byteAttr data length f flag stored typeId s).1 := by
  unfold byteAttr
  rw [sub32_eq h hlength]
  split
  · exact .refl h
  split
  · exact .refl h
  · next hroom =>
    exact (((Within.refl h).write f _).ready flag).trans (within_advance (show s.idx + 1 ≤ length by omega))

theorem within_bssidAttr
    (hinside : typeId = 14 → s.idx + 6 ≤ length → len16 (data s.idx) (data ((s.idx + 1) % 256)) = 6 →
      (s.idx + 2) % 256 + 6 ≤ length) :
    Within length s (bssidAttr data length typeId s).1 := by
  unfold bssidAttr
  rw [sub32_eq h hlength]
  split
  · exact .refl h
  next htype =>
  split
  · exact .refl h
  next hroom =>
  have hread : Within length s ((s.advance 1).advance 1) := within_two (by omega)
  have hone : (s.advance 1).idx = (s.idx + 1) % 256 := rfl
  simp only [readLen, hone]
  split
  · exact hread
  · next hlen =>
    have hend := hinside (not_not.mp htype) (by omega) (not_not.mp hlen)
    rw [← advance_advance_idx] at hend
    exact hread.trans (within_copyValue hend)

theorem within_tokenAttr
    (hinside : typeId = 14 → s.idx + 3 ≤ length →
      len16 (data s.idx) (data ((s.idx + 1) % 256)) ≤ maxTokenParamLen →
      (s.idx + 2) % 256 + len16 (data s.idx) (data ((s.idx + 1) % 256)) ≤ length) :
    Within length s (tokenAttr data length typeId s).1 := by
  unfold tokenAttr
  rw [sub32_eq h hlength]
  split
  · exact .refl h
  next htype =>
  split
  · exact .refl h
  next hroom =>
  have hread : Within length s ((s.advance 1).advance 1) := within_two (by omega)
  have hone : (s.advance 1).idx = (s.idx + 1) % 256 := rfl
  simp only [readLen, hone]
  split
  · exact hread
  · next hlen =>
    have hend := hinside (not_not.mp htype) (by omega) (Nat.le_of_not_lt hlen)
    rw [← advance_advance_idx] at hend
    exact (hread.write .apptokenLen _).trans (within_copyValue hend)

end

/-- **One round** stays inside the message if its attribute does, and goes on in it. -/
theorem within_round (h : s.idx < length) (hinside : AttrInside data length s.idx) :
    Within length s (round data length s).1 ∧
      (length ≤ 255 → (round data length s).2 = none → s.idx < (round data length s).1.idx) := by
  unfold round
  rw [sub32_eq h.le hlength]
  split
  · exact ⟨.refl h.le, fun _ hnone => by cases hnone⟩
  next hroom =>
  have htwo : s.idx + 2 ≤ length := by omega
  have hread := within_two htwo
  have hidx : ((s.advance 1).advance 1).idx = (s.idx + 2) % 256 := advance_advance_idx
  have hswitch : Within length ((s.advance 1).advance 1)
      (attrSwitch data length (data s.idx) (data (s.advance 1).idx) ((s.advance 1).advance 1)).1 := by
    unfold attrSwitch
    split
    · exact within_stringAttr hlength hread.inside
    split
    · exact within_stringAttr hlength hread.inside
    split
    · next htag =>
      refine within_bssidAttr hlength hread.inside fun htype => ?_
      rw [hidx, Nat.mod_add_mod, Nat.mod_add_mod]
      exact (hinside htwo htype).1 htag
    split
    · next htag =>
      refine within_tokenAttr hlength hread.inside fun htype => ?_
      rw [hidx, Nat.mod_add_mod, Nat.mod_add_mod]
      exact (hinside htwo htype).2 htag
    split
    · exact within_byteAttr hlength hread.inside
    split
    · exact within_stringAttr hlength hread.inside
    split
    · exact within_byteAttr hlength hread.inside
    · exact .refl hread.inside
  refine ⟨hread.trans hswitch, fun hshort _ => ?_⟩
  have hmono := hswitch.mono hshort
  have hless : s.idx < (s.idx + 2) % 256 := by
    rw [Nat.mod_eq_of_lt (by omega)]
    omega
  omega

/-- An attribute that ends behind the message is read to its end. -/
theorem round_outside (h : s.idx < length) (hinside : ¬ AttrInside data length s.idx) :
    ∃ r ∈ (round data length s).1.reads, length < r.1 + r.2 := by
  simp only [AttrInside, Classical.not_imp, not_and_or] at hinside
  obtain ⟨hroom, htype, hcase⟩ := hinside
  have hswitch : round data length s =
      attrSwitch data length 14 (data ((s.idx + 1) % 256)) ((s.advance 1).advance 1) := by
    rw [round, sub32_eq h.le hlength, if_neg (by omega), htype]
    rfl
  have hread : (readLen data ((s.advance 1).advance 1)).2.idx = (s.idx + 4) % 256 := by
    rw [readLen, advance_advance_idx, advance_advance_idx, Nat.mod_add_mod]
  have hlen : (readLen data ((s.advance 1).advance 1)).1 =
      len16 (data ((s.idx + 2) % 256)) (data ((s.idx + 3) % 256)) := by
    rw [readLen, advance_advance_idx]
    show len16 _ (data ((((s.advance 1).advance 1).idx + 1) % 256)) = _
    rw [advance_advance_idx, Nat.mod_add_mod]
  have hcopy (f : Field) (flag : UInt8) (len : Nat) (t : Parse) : (t.idx, len) ∈ (copyValue data f flag len t).reads :=
    mem_append_right _ (mem_singleton_self _)
  rw [hswitch]
  rcases hcase with hbssid | htoken
  · simp only [BssidInside, Classical.not_imp] at hbssid
    obtain ⟨htag, hsix, hsize, hend⟩ := hbssid
    refine ⟨((s.idx + 4) % 256, 6), ?_, Nat.lt_of_not_le hend⟩
    rw [htag, attrSwitch, if_neg (by decide), if_neg (by decide), if_pos rfl, bssidAttr, if_neg (by decide),
      advance_advance_idx, sub32_eq (by omega) hlength, if_neg (by omega)]
    dsimp only
    rw [if_neg (not_not.mpr (hlen.trans hsize)), ← hread]
    exact hcopy _ _ _ _
  · simp only [TokenInside, Classical.not_imp] at htoken
    obtain ⟨htag, hthree, hsize, hend⟩ := htoken
    refine ⟨(_, _), ?_, Nat.lt_of_not_le hend⟩
    rw [htag, attrSwitch, if_neg (by decide), if_neg (by decide), if_neg (by decide), if_pos rfl, tokenAttr,
      if_neg (by decide), advance_advance_idx, sub32_eq (by omega) hlength, if_neg (by omega)]
    dsimp only
    rw [hlen, if_neg (Nat.not_lt.mpr hsize), ← hread]
    exact hcopy _ _ _ _

/-- **The rounds** of a message read inside it. -/
theorem Bounded.reads (hinside : ∀ s, Reaches data length s → s.idx < length → AttrInside data length s.idx)
    (h : Reaches data length s) : ∀ r ∈ s.reads, r.1 + r.2 ≤ length := by
  induction h with
  | refl => exact fun r hr => absurd hr not_mem_nil
  | tail hreaches hstep ih =>
    intro r hr
    obtain ⟨hwithin, -⟩ := within_round hlength hstep.1 (hinside _ hreaches hstep.1)
    rw [hstep.2] at hwithin
    exact (hwithin.reads r hr).elim (ih r) id

/-- The loop is left: a message of at most 255 bytes has an end that the index comes to. -/
theorem Bounded.leaves (hbounded : Bounded data length) :
    ∃ t s' err, Reaches data length t ∧ Leaves data length t s' err := by
  obtain hshort | ⟨s, hreaches, hmore, hsome⟩ := hbounded.ends
  · have hgoes (k : Nat) (s : Parse) (hk : length - s.idx = k) (h : Reaches data length s) :
        ∃ t s' err, Reaches data length t ∧ Leaves data length t s' err := by
      induction k using Nat.strong_induction_on generalizing s with
      | _ k ih =>
        by_cases hmore : s.idx < length
        · obtain ⟨-, hprogress⟩ := within_round hlength hmore (hbounded.inside s h hmore)
          cases hr : round data length s with
          | mk next r =>
            cases r with
            | none =>
              have hless : s.idx < next.idx := by
                rw [hr] at hprogress
                exact hprogress hshort rfl
              exact ih (length - next.idx) (by omega) next rfl (h.tail ⟨hmore, hr⟩)
            | some err => exact ⟨s, next, err, h, .error hmore hr⟩
        · exact ⟨s, s, 0, h, .finished (Nat.le_of_not_lt hmore)⟩
    exact hgoes _ {} rfl .refl
  · obtain ⟨err, herr⟩ := Option.ne_none_iff_exists'.mp hsome
    exact ⟨s, (round data length s).1, err, hreaches, .error hmore (Prod.ext rfl herr)⟩

end Reading

/-! ### Any message -/

theorem Fitting.initial : Fitting {} := ⟨fun _ hw => absurd hw not_mem_nil, fun _ => length_replicate⟩

variable {rounds length : Nat} {data : Option (Nat → UInt8)}

/-- The handler runs its loop, or leaves everything as it was. -/
theorem apinfoHandler_cases {res : Outcome} (h : apinfoHandler rounds data length = some res) :
    res.parse = {} ∨ ∃ d ∈ data, ∃ t, Reaches d length t ∧ Leaves d length t res.parse res.errCode := by
  cases data with
  | none =>
    cases h
    exact .inl rfl
  | some d =>
    simp only [apinfoHandler] at h
    split at h
    · cases h
      exact .inl rfl
    · obtain ⟨⟨s, err⟩, hloop, rfl⟩ := Option.map_eq_some_iff.mp h
      exact .inr ⟨d, rfl, loop_leaves hloop⟩

/-- Whatever the message, **what is written fits** into the fields of the record. -/
theorem apinfoHandler_fitting {res : Outcome} (h : apinfoHandler rounds data length = some res) :
    Fitting res.parse := by
  obtain hparse | ⟨d, -, t, hreaches, hleaves⟩ := apinfoHandler_cases h
  · rw [hparse]
    exact .initial
  · have hfitting : Fitting t := hreaches.keeps .initial fun _ hs => hs.round d length
    generalize res.parse = s' at hleaves
    generalize res.errCode = err at hleaves
    cases hleaves with
    | error _ hround =>
      have hnext := hfitting.round d length
      rwa [hround] at hnext
    | finished => exact hfitting

/-- The handler returns what the loop is left with. -/
theorem apinfoHandler_returns {d : Nat → UInt8} {t s' : Parse} {err : Int} (hlength : 2 ≤ length)
    (hreaches : Reaches d length t) (hleaves : Leaves d length t s' err) :
    ∃ rounds, apinfoHandler rounds (some d) length = some ⟨s', err, s'.readyFlag &&& basicReady ≠ 0⟩ := by
  obtain ⟨rounds, hloop⟩ := loop_of_leaves hreaches hleaves
  refine ⟨rounds, ?_⟩
  rw [apinfoHandler, if_neg (Nat.not_lt.mpr hlength), hloop]
  rfl

theorem apinfoHandler_short {data : Option (Nat → UInt8)} (h : ∀ d ∈ data, length < 2) :
    apinfoHandler 0 data length = some ⟨{}, -1, false⟩ := by
  cases data with
  | none => rfl
  | some d =>
    rw [apinfoHandler, if_pos (h d rfl)]
    rfl

def message (bytes : Bytes) (i : Nat) : UInt8 := bytes.getD i 0

theorem loop_endless {data : Nat → UInt8} (Inv : Parse → Prop)
    (hstep : ∀ s, Inv s → s.idx < length ∧ ∃ s', round data length s = (s', none) ∧ Inv s') (rounds : Nat)
    {s : Parse} (h : Inv s) : loop data length rounds s = none := by
  induction rounds generalizing s with
  | zero => rfl
  | succ rounds ih =>
    obtain ⟨hmore, s', hround, hs'⟩ := hstep s h
    rw [loop, if_pos hmore, hround]
    exact ih hs'

def repeated (i : Nat) : UInt8 := message [11, 0xF5, 0, 4, 65, 66, 67, 68] (i % 8)

/-- The index comes back to the first attribute behind the last one. -/
theorem repeated_round (s : Parse) (h : s.idx % 8 = 0 ∧ s.idx < 256) :
    ∃ s', round repeated 256 s = (s', none) ∧ s'.idx % 8 = 0 ∧ s'.idx < 256 := by
  have hone : (s.advance 1).idx = s.idx + 1 := Nat.mod_eq_of_lt (by omega)
  have htwo : ((s.advance 1).advance 1).idx = s.idx + 2 := by
    show ((s.advance 1).idx + 1) % 256 = _
    omega
  have hthree : (((s.advance 1).advance 1).advance 1).idx = s.idx + 3 := by
    show (((s.advance 1).advance 1).idx + 1) % 256 = _
    omega
  have hfour : ((((s.advance 1).advance 1).advance 1).advance 1).idx = s.idx + 4 := by
    show ((((s.advance 1).advance 1).advance 1).idx + 1) % 256 = _
    omega
  have hbyte (k : Nat) (hk : k < 8) : repeated (s.idx + k) = message [11, 0xF5, 0, 4, 65, 66, 67, 68] k := by
    rw [repeated, show (s.idx + k) % 8 = k by omega]
  have htype : repeated s.idx = 11 := hbyte 0 (by decide)
  have htag : repeated (s.idx + 1) = ssidId := hbyte 1 (by decide)
  have hlen : len16 (repeated (s.idx + 2)) (repeated (s.idx + 3)) = 4 := by
    rw [hbyte 2 (by decide), hbyte 3 (by decide)]
    rfl
  refine ⟨copyValue repeated .ssid ssidReady 4 ((((s.advance 1).advance 1).advance 1).advance 1), ?_, ?_⟩
  · rw [round, sub32_eq (by omega) (by decide), if_neg (by omega), hone, htype, htag, attrSwitch, if_pos rfl,
      ssidAttr, stringAttr, if_neg (by decide), htwo, sub32_eq (by omega) (by decide), if_neg (by omega)]
    simp only [readLen, htwo, hthree, hfour, hlen]
    rw [if_neg (by decide), sub32_eq (by omega) (by decide), if_neg (by omega)]
  · show (((((s.advance 1).advance 1).advance 1).advance 1).idx + 4) % 256 % 8 = 0 ∧
      (((((s.advance 1).advance 1).advance 1).advance 1).idx + 4) % 256 < 256
    omega

end Qumios.Ble.Apinfo
