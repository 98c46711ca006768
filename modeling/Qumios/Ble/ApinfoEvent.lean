import Qumios.Ble.Apinfo

/-! When the access point a phone sent is reported.

`Attr` is the grammar of one attribute of the message, `Attrs` of a sequence of them. A round takes
an attribute that starts at its position (`Attr.took`), and keeps a flag for each kind it has seen.
The event is raised at the end of the handler, after an error as well as without one, as soon as
one of the flags for SSID and password is set; and a second SSID is copied over the first, whose
last bytes stay if it was longer.

So an event says that the whole message was read and brought both exactly for the messages of
attributes alone that bring one SSID and one password, and for those in which the handler comes to
neither (`apinfo_reported`). -/
namespace Qumios.Ble.Apinfo
open Buffer List

/-! ### The attributes of a message -/

/-- The flag set for a field. -/
def flagOf : Field → UInt8
  | .ssid => ssidReady
  | .pw => passwordReady
  | .bssid => bssidReady
  | .apptoken => apptokenReady
  | .regionId => regionIdReady
  | .regionUrl => regionMqttUrlReady
  | .regionType => regionTypeReady
  | .apptokenLen => 0

def texts : List (Field × UInt8 × Nat) :=
  [(.ssid, ssidId, maxSsid), (.pw, pwdId, maxPassword), (.regionUrl, mqttUrlId, maxUrlLen)]

def bytes : List (Field × UInt8) := [(.regionId, regionId), (.regionType, regionTypeId)]

section Grammar
variable (data : Nat → UInt8) (length : Nat)

def lenAt (i : Nat) : Nat := len16 (data i) (data (i + 1))

def valueAt (i n : Nat) : Bytes := (List.range' i n).map data

/-- At position `i` of the message starts an attribute that brings a value for a field and ends at `n`. -/
inductive Attr (i : Nat) : Field → Bytes → Nat → Prop where
  | text {f : Field} {tag : UInt8} {max : Nat} (hkind : (f, tag, max) ∈ texts) (htype : data i = 11)
      (htag : data (i + 1) = tag) (hroom : i + 6 ≤ length) (hmax : lenAt data (i + 2) ≤ max)
      (hend : i + 4 + lenAt data (i + 2) ≤ length) :
      Attr i f (valueAt data (i + 4) (lenAt data (i + 2))) (i + 4 + lenAt data (i + 2))
  | bssid (htype : data i = 14) (htag : data (i + 1) = bssidId) (hlen : lenAt data (i + 2) = 6)
      (hend : i + 10 ≤ length) : Attr i .bssid (valueAt data (i + 4) 6) (i + 10)
  | token (htype : data i = 14) (htag : data (i + 1) = tokenId) (hroom : i + 5 ≤ length)
      (hmax : lenAt data (i + 2) ≤ maxTokenParamLen) (hend : i + 4 + lenAt data (i + 2) ≤ length) :
      Attr i .apptoken (valueAt data (i + 4) (lenAt data (i + 2))) (i + 4 + lenAt data (i + 2))
  | byte {f : Field} {tag : UInt8} (hkind : (f, tag) ∈ bytes) (htype : data i = 2)
      (htag : data (i + 1) = tag) (hend : i + 3 ≤ length) : Attr i f [data (i + 2)] (i + 3)

/-- From `i` to `p` the message consists of these attributes. -/
inductive Attrs : Nat → List (Field × Bytes) → Nat → Prop where
  | nil (i : Nat) : Attrs i [] i
  | cons {i n p : Nat} {f : Field} {v : Bytes} {items : List (Field × Bytes)} (hattr : Attr data length i f v n)
      (hrest : Attrs n items p) : Attrs i ((f, v) :: items) p

end Grammar

/-- The field with the bytes in front and zeros behind them. -/
def padded (f : Field) (v : Bytes) : Bytes := v ++ List.replicate (f.capacity - v.length) 0

/-- A field is brought, and by several attributes only if they bring the same. -/
structure Supplied (f : Field) (items : List (Field × Bytes)) : Prop where
  brought : ∃ v, (f, v) ∈ items
  same : ∀ v w, (f, v) ∈ items → (f, w) ∈ items → padded f v = padded f w

section Attributes
variable {data : Nat → UInt8} {length : Nat}

variable {f : Field} {i n : Nat} {v : Bytes} {items : List (Field × Bytes)}

theorem Attr.bounds (h : Attr data length i f v n) : i + 3 ≤ n ∧ n ≤ length := by
  cases h <;> omega

variable {max p : Nat} {f' : Field} {all : List (Field × Bytes)}

theorem Attr.text_of {len : Nat} {tag : UInt8} (hkind : (f, tag, max) ∈ texts) (hlen : lenAt data (i + 2) = len)
    (hv : valueAt data (i + 4) len = v)
    (h : data i = 11 ∧ data (i + 1) = tag ∧ i + 6 ≤ length ∧ len ≤ max ∧ i + 4 + len ≤ length) :
    Attr data length i f v (i + 4 + len) := by
  subst hlen hv
  exact .text hkind h.1 h.2.1 h.2.2.1 h.2.2.2.1 h.2.2.2.2

/-- The field is known from the tag. -/
def tagOf : Field → UInt8
  | .ssid => ssidId
  | .pw => pwdId
  | .bssid => bssidId
  | .apptoken => tokenId
  | .regionId => regionId
  | .regionUrl => mqttUrlId
  | .regionType => regionTypeId
  | .apptokenLen => 0

theorem tagOf_injective : Function.Injective tagOf := by
  intro f g h
  cases f <;> cases g <;> first | rfl | exact absurd h (by decide)

theorem tag_of_texts {tag : UInt8} (h : (f, tag, max) ∈ texts) : tag = tagOf f := by
  simp only [texts, mem_cons, Prod.mk.injEq, not_mem_nil, or_false] at h
  obtain ⟨rfl, rfl, -⟩ | ⟨rfl, rfl, -⟩ | ⟨rfl, rfl, -⟩ := h <;> rfl

theorem tag_of_bytes {tag : UInt8} (h : (f, tag) ∈ bytes) : tag = tagOf f := by
  simp only [bytes, mem_cons, Prod.mk.injEq, not_mem_nil, or_false] at h
  obtain ⟨rfl, rfl⟩ | ⟨rfl, rfl⟩ := h <;> rfl

theorem Attr.tag (h : Attr data length i f v n) : data (i + 1) = tagOf f := by
  cases h with
  | text hkind htype htag => rw [htag, tag_of_texts hkind]
  | bssid htype htag => exact htag
  | token htype htag => exact htag
  | byte hkind htype htag => rw [htag, tag_of_bytes hkind]

section
variable (h : Attr data length i f v n)
include h

/-- **At a position starts at most one attribute.** -/
theorem Attr.unique {n' : Nat} {v' : Bytes} (h' : Attr data length i f' v' n') : f = f' ∧ v = v' ∧ n = n' := by
  obtain rfl : f = f' := tagOf_injective (h.tag.symm.trans h'.tag)
  -- the field knows its kind: two attributes of one field have the same form
  cases h <;> cases h' <;> first | exact ⟨rfl, rfl, rfl⟩ | simp_all
end

theorem Attrs.nil_of_end (h : Attrs data length length items p) : items = [] := by
  cases h with
  | nil => rfl
  | cons hattr =>
    have := hattr.bounds
    omega

/-- A message that consists of attributes alone is read in one way only. -/
theorem Attrs.front (h : Attrs data length i items p) (hall : Attrs data length i all length) :
    ∃ more, all = items ++ more ∧ Attrs data length p more length := by
  induction h generalizing all with
  | nil i => exact ⟨all, rfl, hall⟩
  | cons hattr _ ih =>
    cases hall with
    | nil =>
      have := hattr.bounds
      omega
    | cons hattr' hrest =>
      obtain ⟨rfl, rfl, rfl⟩ := hattr.unique hattr'
      obtain ⟨more, rfl, hmore⟩ := ih hrest
      exact ⟨more, rfl, hmore⟩

theorem Attrs.unique (h : Attrs data length i items length) (hall : Attrs data length i all length) : items = all := by
  obtain ⟨more, rfl, hmore⟩ := h.front hall
  rw [hmore.nil_of_end, append_nil]

end Attributes

/-! ### A round takes an attribute -/

/-- What a round that takes an attribute does to the variables. -/
structure Took (f : Field) (v : Bytes) (n : Nat) (s s' : Parse) : Prop where
  idx : s'.idx = n
  flag : s'.readyFlag = s.readyFlag ||| flagOf f
  field : ∀ g, g = .ssid ∨ g = .pw → s'.apinfo g = if g = f then splice (s.apinfo g) 0 v else s.apinfo g

variable {f : Field} {v : Bytes} {n : Nat} {s : Parse} {items : List (Field × Bytes)}

section Round
variable {data : Nat → UInt8} {length : Nat}

theorem write_apinfo {g : Field} :
    (s.write f v).apinfo g = if g = f then splice (s.apinfo g) 0 v else s.apinfo g := by
  by_cases hg : g = f
  · subst hg
    simp [Parse.write]
  · simp [Parse.write, hg]

/-- An error is not zero, and leaves the flags as they were. -/
def Refuses (s : Parse) (r : Parse × Option Int) : Prop := ∀ err ∈ r.2, err ≠ 0 ∧ r.1.readyFlag = s.readyFlag

theorem Refuses.check {Q : Prop} [Decidable Q] {s₂ : Parse} {r : Parse × Option Int}
    (hflag : s₂.readyFlag = s.readyFlag) (hr : Refuses s r) : Refuses s (if Q then (s₂, some (-1)) else r) := by
  split
  · rintro err ⟨⟩
    exact ⟨by decide, hflag⟩
  · exact hr

theorem Refuses.taken {s' : Parse} : Refuses s (s', none) := fun _ herr => nomatch herr

theorem round_refuses : Refuses s (round data length s) := by
  have htext (f : Field) (flag : UInt8) (max : Nat) (typeId : UInt8) :
      Refuses s (stringAttr data length f flag max typeId ((s.advance 1).advance 1)) := by
    unfold stringAttr
    exact .check rfl (.check rfl (.check rfl (.check rfl .taken)))
  have hbyte (f : Field) (flag : UInt8) (stored : UInt8 → Bytes) (typeId : UInt8) :
      Refuses s (byteAttr data length f flag stored typeId ((s.advance 1).advance 1)) := by
    unfold byteAttr
    exact .check rfl (.check rfl .taken)
  unfold round attrSwitch
  refine .check rfl ?_
  repeat' split
  · exact htext _ _ _ _
  · exact htext _ _ _ _
  · unfold bssidAttr
    exact .check rfl (.check rfl (.check rfl .taken))
  · unfold tokenAttr
    exact .check rfl (.check rfl (.check rfl .taken))
  · exact hbyte _ _ _ _
  · exact htext _ _ _ _
  · exact hbyte _ _ _ _
  · rintro err ⟨⟩
    exact ⟨by decide, rfl⟩

theorem round_error {s' : Parse} {err : Int} (h : round data length s = (s', some err)) :
    err ≠ 0 ∧ s'.readyFlag = s.readyFlag := by
  have hrefuses : Refuses s (round data length s) := round_refuses
  rw [h] at hrefuses
  exact hrefuses err rfl

variable (hlength : length ≤ 255)
include hlength

variable {i : Nat} {typeId : UInt8}

variable (data) in
theorem copyValue_took (f : Field) (len : Nat) (hi : s.idx = i) (hend : i + len ≤ length) :
    Took f (valueAt data i len) (i + len) s (copyValue data f (flagOf f) len s) where
  idx := by rw [← hi] at hend ⊢; exact advance_idx hlength (s := (s.write f _).ready _) hend
  flag := rfl
  field g _ := by
    rw [← hi]
    exact write_apinfo

variable (data) in
theorem readLen_eq (hi : s.idx = i) (hroom : i + 2 ≤ length) :
    (readLen data s).1 = lenAt data i ∧ (readLen data s).2.idx = i + 2 := by
  have hone : (s.advance 1).idx = i + 1 := by rw [advance_idx hlength (by omega), hi]
  refine ⟨by rw [readLen, hone, hi, lenAt], ?_⟩
  show ((s.advance 1).idx + 1) % 256 = _
  rw [hone, Nat.mod_eq_of_lt (by omega)]

section
variable (hi : s.idx = i + 2)
include hi

theorem stringAttr_took {max : Nat} (hroom : i + 6 ≤ length) (hmax : lenAt data (i + 2) ≤ max)
    (hend : i + 4 + lenAt data (i + 2) ≤ length) :
    ∃ s', stringAttr data length f (flagOf f) max 11 s = (s', none) ∧
      Took f (valueAt data (i + 4) (lenAt data (i + 2))) (i + 4 + lenAt data (i + 2)) s s' := by
  obtain ⟨hlen, hidx⟩ := readLen_eq data hlength hi (by omega)
  have htook := copyValue_took data hlength f (lenAt data (i + 2)) hidx (by omega)
  refine ⟨_, ?_, htook.idx, htook.flag, htook.field⟩
  rw [stringAttr, if_neg (by decide), hi, sub32_eq (by omega) (by omega), if_neg (by omega)]
  dsimp only
  rw [hlen, hidx, sub32_eq (by omega) (by omega), if_neg (by omega), if_neg (by omega)]

theorem bssidAttr_took (hlen : lenAt data (i + 2) = 6) (hend : i + 10 ≤ length) :
    ∃ s', bssidAttr data length 14 s = (s', none) ∧ Took .bssid (valueAt data (i + 4) 6) (i + 10) s s' := by
  obtain ⟨hread, hidx⟩ := readLen_eq data hlength hi (by omega)
  have htook := copyValue_took data hlength .bssid 6 hidx (by omega)
  refine ⟨_, ?_, htook.idx, htook.flag, htook.field⟩
  rw [bssidAttr, if_neg (by decide), hi, sub32_eq (by omega) (by omega), if_neg (by omega)]
  dsimp only
  rw [hread, if_neg (not_not.mpr hlen)]
  rfl

theorem tokenAttr_took (hroom : i + 5 ≤ length) (hmax : lenAt data (i + 2) ≤ maxTokenParamLen)
    (hend : i + 4 + lenAt data (i + 2) ≤ length) :
    ∃ s', tokenAttr data length 14 s = (s', none) ∧
      Took .apptoken (valueAt data (i + 4) (lenAt data (i + 2))) (i + 4 + lenAt data (i + 2)) s s' := by
  obtain ⟨hread, hidx⟩ := readLen_eq data hlength hi (by omega)
  have htook := copyValue_took data hlength .apptoken (lenAt data (i + 2))
    (s := (readLen data s).2.write .apptokenLen [UInt8.ofNat (lenAt data (i + 2))]) hidx hend
  refine ⟨_, ?_, htook.idx, htook.flag, fun g hg => ?_⟩
  · rw [tokenAttr, if_neg (by decide), hi, sub32_eq (by omega) (by omega), if_neg (by omega)]
    dsimp only
    rw [hread, if_neg (by omega)]
    rfl
  · have hne : g ≠ .apptokenLen := by rintro rfl; simp at hg
    refine (htook.field g hg).trans ?_
    rw [write_apinfo, if_neg hne]
    rfl

variable (data) in
theorem byteAttr_took (stored : UInt8 → Bytes) (hf : f ≠ .ssid ∧ f ≠ .pw) (hend : i + 3 ≤ length) :
    ∃ s', byteAttr data length f (flagOf f) stored 2 s = (s', none) ∧ Took f [data (i + 2)] (i + 3) s s' := by
  refine ⟨((s.write f (stored (data s.idx))).ready (flagOf f)).advance 1, ?_, ?_, rfl, fun g hg => ?_⟩
  · rw [byteAttr, if_neg (by decide), hi, sub32_eq (by omega) (by omega), if_neg (by omega)]
  · show (s.advance 1).idx = _
    rw [advance_idx hlength (show s.idx + 1 ≤ length by omega), hi]
  · have hne : g ≠ f := by rintro rfl; tauto
    show (s.write f _).apinfo g = _
    rw [write_apinfo, if_neg hne, if_neg hne]

end

/-- **One round**, at a position where an attribute starts, takes it. -/
theorem Attr.took (h : Attr data length s.idx f v n) :
    ∃ s', round data length s = (s', none) ∧ Took f v n s s' := by
  have hbounds := h.bounds
  have hone : (s.advance 1).idx = s.idx + 1 := advance_idx hlength (by omega)
  have htwo : ((s.advance 1).advance 1).idx = s.idx + 2 := by
    rw [advance_advance_idx, Nat.mod_eq_of_lt (by omega)]
  have hround : round data length s =
      attrSwitch data length (data s.idx) (data (s.idx + 1)) ((s.advance 1).advance 1) := by
    rw [round, sub32_eq (by omega) (by omega), if_neg (by omega), hone]
  suffices hswitch : ∃ s', attrSwitch data length (data s.idx) (data (s.idx + 1)) ((s.advance 1).advance 1) = (s', none) ∧
      Took f v n ((s.advance 1).advance 1) s' by
    obtain ⟨s', hs', htook⟩ := hswitch
    exact ⟨s', hround.trans hs', htook.idx, htook.flag, htook.field⟩
  cases h with
  | @text f tag max hkind htype htag hroom hmax hend =>
    rw [htype, htag]
    simp only [texts, mem_cons, Prod.mk.injEq, not_mem_nil, or_false] at hkind
    obtain ⟨rfl, rfl, rfl⟩ | ⟨rfl, rfl, rfl⟩ | ⟨rfl, rfl, rfl⟩ := hkind
    all_goals exact stringAttr_took hlength htwo hroom hmax hend
  | bssid htype htag hlen hend =>
    rw [htype, htag]
    exact bssidAttr_took hlength htwo hlen hend
  | token htype htag hroom hmax hend =>
    rw [htype, htag]
    exact tokenAttr_took hlength htwo hroom hmax hend
  | @byte f tag hkind htype htag hend =>
    rw [htype, htag]
    simp only [bytes, mem_cons, Prod.mk.injEq, not_mem_nil, or_false] at hkind
    obtain ⟨rfl, rfl⟩ | ⟨rfl, rfl⟩ := hkind
    · exact byteAttr_took (f := .regionId) data hlength htwo (fun b => [b, 0, 0, 0]) (by decide) hend
    · exact byteAttr_took (f := .regionType) data hlength htwo (fun b => [b]) (by decide) hend

end Round

/-! ### What a sequence of attributes leaves -/

def flags (items : List (Field × Bytes)) : UInt8 := items.foldl (fun flag x => flag ||| flagOf x.1) 0

def memory (f : Field) (items : List (Field × Bytes)) : Bytes :=
  items.foldl (fun m x => if f = x.1 then splice m 0 x.2 else m) (Record.zero f)

/-- The variables are those after these attributes. -/
structure Follows (items : List (Field × Bytes)) (s : Parse) : Prop where
  flag : s.readyFlag = flags items
  field : ∀ g, g = .ssid ∨ g = .pw → s.apinfo g = memory g items

theorem Follows.initial : Follows [] {} := ⟨rfl, fun _ _ => rfl⟩

theorem Follows.took {s' : Parse} (h : Follows items s) (htook : Took f v n s s') : Follows (items ++ [(f, v)]) s' where
  flag := by rw [htook.flag, h.flag, flags, flags, foldl_append, foldl_cons, foldl_nil]
  field g hg := by
    rw [htook.field g hg, h.field g hg, memory, memory, foldl_append, foldl_cons, foldl_nil]

theorem and_or_distrib_right (a b c : UInt8) : (a ||| b) &&& c = a &&& c ||| b &&& c :=
  UInt8.toBitVec_inj.mp BitVec.and_or_distrib_right

theorem flagOf_basic (f : Field) : flagOf f &&& basicReady = 0 ↔ f ≠ .ssid ∧ f ≠ .pw := by
  cases f <;> decide

theorem foldl_flags (items : List (Field × Bytes)) (flag : UInt8) :
    items.foldl (fun flag x => flag ||| flagOf x.1) flag &&& basicReady = 0 ↔
      flag &&& basicReady = 0 ∧ ∀ x ∈ items, x.1 ≠ .ssid ∧ x.1 ≠ .pw := by
  induction items generalizing flag with
  | nil => simp
  | cons x items ih =>
    rw [foldl_cons, ih, and_or_distrib_right, UInt8.or_eq_zero_iff, flagOf_basic, forall_mem_cons, and_assoc]

theorem flags_basic (items : List (Field × Bytes)) :
    flags items &&& basicReady = 0 ↔ ∀ x ∈ items, x.1 ≠ .ssid ∧ x.1 ≠ .pw := by
  rw [flags, foldl_flags]
  simp

theorem splice_padded (v : Bytes) : splice (padded f v) 0 v = padded f v := by
  simp [splice, padded]

theorem foldl_same (hsame : ∀ w, (f, w) ∈ items → padded f w = padded f v) :
    items.foldl (fun m x => if f = x.1 then splice m 0 x.2 else m) (padded f v) = padded f v := by
  induction items with
  | nil => rfl
  | cons x items ih =>
    obtain ⟨g, w⟩ := x
    have hrest := ih fun w hw => hsame w (mem_cons_of_mem _ hw)
    rw [foldl_cons]
    by_cases hg : f = g
    · subst hg
      rw [if_pos rfl, ← hsame w mem_cons_self, splice_padded, hsame w mem_cons_self, hrest]
    · rw [if_neg hg, hrest]

/-- A field that is supplied holds the bytes brought for it, with zeros behind them. -/
theorem memory_supplied (hsame : ∀ w, (f, w) ∈ items → padded f w = padded f v) (hmem : (f, v) ∈ items) :
    memory f items = padded f v := by
  unfold memory
  induction items with
  | nil => exact absurd hmem not_mem_nil
  | cons x items ih =>
    obtain ⟨g, w⟩ := x
    have hrest : ∀ w, (f, w) ∈ items → padded f w = padded f v := fun w hw => hsame w (mem_cons_of_mem _ hw)
    rw [foldl_cons]
    by_cases hg : f = g
    · subst hg
      have hzero : splice (Record.zero f) 0 w = padded f w := by simp [splice, Record.zero, padded]
      rw [if_pos rfl, hzero, hsame w mem_cons_self, foldl_same hrest]
    · rw [if_neg hg]
      refine ih hrest ((mem_cons.mp hmem).resolve_left ?_)
      rintro heq
      exact hg (Prod.mk.inj heq).1

/-! ### The loop -/

section Loop
variable {data : Nat → UInt8} {length : Nat} (hlength : length ≤ 255)
include hlength

/-- **The rounds** take the attributes in front of them. -/
theorem Attrs.reaches {i p : Nat} {more : List (Field × Bytes)} (h : Attrs data length i more p)
    (hreaches : Reaches data length s) (hi : s.idx = i) (hfollows : Follows items s) :
    ∃ s', Reaches data length s' ∧ s'.idx = p ∧ Follows (items ++ more) s' := by
  induction h generalizing s items with
  | nil i => exact ⟨s, hreaches, hi, by rwa [append_nil]⟩
  | cons hattr _ ih =>
    have hbounds := hattr.bounds
    subst hi
    obtain ⟨s', hround, htook⟩ := hattr.took hlength
    obtain ⟨s'', hreaches', hp, hfollows'⟩ :=
      ih (hreaches.tail ⟨by omega, hround⟩) htook.idx (hfollows.took htook)
    exact ⟨s'', hreaches', hp, by rwa [append_assoc] at hfollows'⟩

/-- A message of attributes alone is read to its end, and the loop is left nowhere else. -/
theorem Attrs.whole (h : Attrs data length 0 items length) :
    ∃ s, Reaches data length s ∧ Leaves data length s s 0 ∧ Follows items s ∧
      ∀ t s' err, Reaches data length t → Leaves data length t s' err → t = s ∧ s' = s ∧ err = 0 := by
  obtain ⟨s, hreaches, hidx, hfollows⟩ := h.reaches hlength .refl rfl .initial
  have hleaves : Leaves data length s s 0 := .finished hidx.ge
  refine ⟨s, hreaches, hleaves, hfollows, fun t s' err ht hleaves' => ?_⟩
  obtain rfl | ⟨u, hstep, -⟩ := (hleaves.behind hreaches ht).cases_head
  · cases hleaves' with
    | error hmore _ => omega
    | finished => exact ⟨rfl, rfl, rfl⟩
  · exact absurd hstep hleaves'.stuck

end Loop

/-! ### The event -/

def Carried (data : Nat → UInt8) (length : Nat) : Prop :=
  ∃ items, Attrs data length 0 items length ∧ (∃ v, (.ssid, v) ∈ items) ∧ ∃ v, (.pw, v) ∈ items

/-- The event is raised exactly if the whole message was read without an error and brought both, and SSID and
password are then the bytes of the message, with zeros behind them. -/
structure Truthful (data : Option (Nat → UInt8)) (length : Nat) (res : Outcome) : Prop where
  notified : res.notified = true ↔ res.errCode = 0 ∧ ∃ d ∈ data, Carried d length
  fields : res.notified = true → ∀ d ∈ data, ∀ items, Attrs d length 0 items length →
    ∀ f v, f = .ssid ∨ f = .pw → (f, v) ∈ items → res.parse.apinfo f = padded f v

theorem Truthful.nothing (data : Option (Nat → UInt8)) (length : Nat) : Truthful data length ⟨{}, -1, false⟩ :=
  ⟨iff_of_false Bool.false_ne_true fun h => absurd h.1 (by decide), fun h => absurd h Bool.false_ne_true⟩

/-- The message consists of attributes alone and brings an SSID and a password; or the loop is left before the
handler came to one of them. -/
def Reportable (data : Nat → UInt8) (length : Nat) : Prop :=
  (length ≤ 255 ∧ ∃ items, Attrs data length 0 items length ∧ Supplied .ssid items ∧ Supplied .pw items) ∨
    ∃ s s' err, Reaches data length s ∧ Leaves data length s s' err ∧ s.readyFlag &&& basicReady = 0

section Event
variable {d : Nat → UInt8} {length : Nat} {t s' : Parse} {err : Int}

theorem Leaves.flag (h : Leaves d length t s' err) : s'.readyFlag = t.readyFlag := by
  cases h with
  | error _ hround => exact (round_error hround).2
  | finished => rfl

/-- Without an error the index passed the end, which only a short message has. -/
theorem Leaves.ok (h : Leaves d length t s' 0) (ht : Reaches d length t) : length ≤ 255 ∧ s' = t := by
  have hidx := Reaches.idx_lt ht
  cases h with
  | error _ hround => exact absurd rfl (round_error hround).1
  | finished hend => exact ⟨by omega, rfl⟩

/-- What is reported is truthful exactly for a reportable message. -/
theorem truthful_iff (ht : Reaches d length t) (h : Leaves d length t s' err) :
    Truthful (some d) length ⟨s', err, s'.readyFlag &&& basicReady ≠ 0⟩ ↔ Reportable d length := by
  constructor
  · intro htruthful
    by_cases hflag : s'.readyFlag &&& basicReady = 0
    · exact .inr ⟨t, s', err, ht, h, by rw [← h.flag]; exact hflag⟩
    · have hraised : decide (s'.readyFlag &&& basicReady ≠ 0) = true := decide_eq_true hflag
      obtain ⟨herr, d', hd, items, hitems, hssid, hpw⟩ := htruthful.notified.mp hraised
      obtain rfl := Option.some.inj hd
      obtain rfl : err = 0 := herr
      have hfield := htruthful.fields hraised d rfl items hitems
      refine .inl ⟨(h.ok ht).1, items, hitems, ⟨hssid, fun v w hv hw => ?_⟩, ⟨hpw, fun v w hv hw => ?_⟩⟩
      · rw [← hfield .ssid v (.inl rfl) hv, ← hfield .ssid w (.inl rfl) hw]
      · rw [← hfield .pw v (.inr rfl) hv, ← hfield .pw w (.inr rfl) hw]
  · rintro (⟨hlength, items, hitems, hssid, hpw⟩ | ⟨s, s'', err', hs, hleaves, hflag⟩)
    · obtain ⟨s, hs, hleaves, hfollows, honly⟩ := hitems.whole hlength
      obtain ⟨rfl, rfl, rfl⟩ := honly t s' err ht h
      have hflag : s'.readyFlag &&& basicReady ≠ 0 := by
        rw [hfollows.flag, Ne, flags_basic]
        obtain ⟨v, hv⟩ := hssid.brought
        exact fun hnone => (hnone _ hv).1 rfl
      refine ⟨iff_of_true (decide_eq_true hflag) ⟨rfl, d, rfl, items, hitems, hssid.brought, hpw.brought⟩, ?_⟩
      rintro - d' hd items' hitems' f v hf hv
      obtain rfl := Option.some.inj hd
      obtain rfl := hitems'.unique hitems
      refine (hfollows.field f hf).trans (memory_supplied (fun w hw => ?_) hv)
      rcases hf with rfl | rfl
      · exact hssid.same w v hw hv
      · exact hpw.same w v hw hv
    · -- the loop is left in one state only
      have hsame : s'.readyFlag &&& basicReady = 0 := by
        obtain rfl | ⟨u, hstep, -⟩ := (h.behind ht hs).cases_head
        · rw [h.flag, hflag]
        · exact absurd hstep hleaves.stuck
      have hquiet : ¬ decide (s'.readyFlag &&& basicReady ≠ 0) = true := by
        rw [decide_eq_true_eq]
        exact not_not.mpr hsame
      refine ⟨iff_of_false hquiet ?_, fun hraised => absurd hraised hquiet⟩
      rintro ⟨herr, d', hd, items, hitems, ⟨v, hv⟩, -⟩
      obtain rfl := Option.some.inj hd
      obtain rfl : err = 0 := herr
      obtain ⟨s₀, -, -, hfollows, honly⟩ := hitems.whole (h.ok ht).1
      obtain ⟨-, rfl, -⟩ := honly t s' 0 ht h
      rw [hfollows.flag, flags_basic] at hsame
      exact (hsame _ hv).1 rfl

end Event

def both : Nat → UInt8 := message [11, 0xF5, 0, 2, 65, 66, 11, 0xF4, 0, 2, 67, 68]

theorem both_ssid : Attr both 12 0 .ssid [65, 66] 6 :=
  .text_of (show (.ssid, ssidId, maxSsid) ∈ texts by decide) (show lenAt both 2 = 2 by decide) rfl (by decide)

theorem both_pw : Attr both 12 6 .pw [67, 68] 12 :=
  .text_of (show (.pw, pwdId, maxPassword) ∈ texts by decide) (show lenAt both 8 = 2 by decide) rfl (by decide)

def alone : Nat → UInt8 := message [11, 0xF5, 0, 2, 65, 66]

theorem alone_ssid : Attr alone 6 0 .ssid [65, 66] 6 :=
  .text_of (show (.ssid, ssidId, maxSsid) ∈ texts by decide) (show lenAt alone 2 = 2 by decide) rfl (by decide)

def twice : Nat → UInt8 := message [11, 0xF5, 0, 4, 65, 66, 67, 68, 11, 0xF5, 0, 2, 88, 89, 11, 0xF4, 0, 2, 67, 68]

theorem twice_attrs : Attrs twice 20 0 [(.ssid, [65, 66, 67, 68]), (.ssid, [88, 89]), (.pw, [67, 68])] 20 := by
  have hfirst : Attr twice 20 0 .ssid [65, 66, 67, 68] 8 :=
    .text_of (show (.ssid, ssidId, maxSsid) ∈ texts by decide) (show lenAt twice 2 = 4 by decide) rfl (by decide)
  have hsecond : Attr twice 20 8 .ssid [88, 89] 14 :=
    .text_of (show (.ssid, ssidId, maxSsid) ∈ texts by decide) (show lenAt twice 10 = 2 by decide) rfl (by decide)
  have hpw : Attr twice 20 14 .pw [67, 68] 20 :=
    .text_of (show (.pw, pwdId, maxPassword) ∈ texts by decide) (show lenAt twice 16 = 2 by decide) rfl (by decide)
  exact .cons hfirst (.cons hsecond (.cons hpw (.nil 20)))

end Qumios.Ble.Apinfo
