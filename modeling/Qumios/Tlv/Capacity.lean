import Qumios.Tlv.RoundTrip

/-! Serializing into buffers that may be too small: asking for the length first, and
reporting in pieces.

`serializeLoop_spec` says what one pass does to any context: it writes leading blocks of
the selection, as many as its own length function lets through. What that means in bytes
depends on whether the length function is right about them (`Exact`): that of TLV always
is, those of DTTV and TTLV go by the size of the type and, in TTLV, by the widths of the
struct. -/
namespace Qumios.Tlv
open Wire List

def SerializeType.selected (ty : SerializeType) (ctx : Context) : Context := ctx.filter ty.wants

def SerializeType.cleared (ty : SerializeType) (b : Block) : Block := if ty.wants b then ty.written b else b

/-! ### One pass -/

section Pass
variable {f : Format} {ty : SerializeType} {b : Block}

theorem length_stream_take_mono (f : Format) (xs : Context) {i j : Nat} (h : i ≤ j) :
    (f.stream (xs.take i)).length ≤ (f.stream (xs.take j)).length := by
  have hsplit : xs.take j = xs.take i ++ (xs.take j).drop i := by
    have := (take_append_drop i (xs.take j)).symm
    rwa [take_take, Nat.min_eq_left h] at this
  rw [hsplit, Format.stream, Format.stream, flatMap_append, length_append]
  exact Nat.le_add_right _ _

theorem stream_take_succ (f : Format) {xs : Context} {k : Nat} (h : xs[k]? = some b) :
    f.stream (xs.take (k + 1)) = f.stream (xs.take k) ++ f.wire b := by
  rw [take_add_one, h, Format.stream, flatMap_append]
  simp [Format.stream]

theorem selected_cons_of_pos (ctx : Context) (h : ty.wants b = true) : ty.selected (b :: ctx) = b :: ty.selected ctx :=
  filter_cons_of_pos h

theorem selected_cons_of_neg (ctx : Context) (h : ty.wants b = false) : ty.selected (b :: ctx) = ty.selected ctx :=
  filter_cons_of_neg (by simp [h])

theorem written_not_wanted (hty : ty ≠ .all) (b : Block) : ty.wants (ty.written b) = false := by
  cases ty with
  | all => exact absurd rfl hty
  | update => rfl
  | part => rfl

theorem cleared_written (ty : SerializeType) (b : Block) : ty.cleared (ty.written b) = ty.written b := by
  cases ty <;> rfl

theorem serializeLoop_null (f : Format) (ty : SerializeType) (offset index : Nat) (ctx : Context) :
    serializeLoop f false ty offset index ctx = (f.stream (ty.selected ctx), ctx) := by
  induction ctx generalizing index with
  | nil => rfl
  | cons b rest ih =>
    cases hb : ty.wants b with
    | false => simp [serializeLoop, hb, ih, selected_cons_of_neg rest hb]
    | true => simp [serializeLoop, hb, ih, selected_cons_of_pos rest hb, Format.stream]

/-- What a pass from `index` on does: the first `k` of the selected blocks are written. -/
structure Pass (f : Format) (ty : SerializeType) (offset index : Nat) (ctx : Context) (k : Nat)
    (r : Bytes × Context) : Prop where
  count : k ≤ (ty.selected ctx).length
  written : r.1 = f.stream ((ty.selected ctx).take k)
  /-- Each of them was found to fit. -/
  fits : ∀ j b, j < k → (ty.selected ctx)[j]? = some b →
    index + (f.stream ((ty.selected ctx).take j)).length + f.blockLen b ≤ offset
  /-- The next one was not. -/
  stops : ∀ b, (ty.selected ctx)[k]? = some b →
    offset < index + (f.stream ((ty.selected ctx).take k)).length + f.blockLen b
  left : ty ≠ .all → ty.selected r.2 = (ty.selected ctx).drop k
  cleared : r.2.map ty.cleared = ctx.map ty.cleared

theorem serializeLoop_spec (f : Format) (ty : SerializeType) (offset index : Nat) (ctx : Context) :
    ∃ k, Pass f ty offset index ctx k (serializeLoop f true ty offset index ctx) := by
  induction ctx generalizing index with
  | nil => exact ⟨0, by simp [SerializeType.selected], rfl, by simp, by simp [SerializeType.selected], fun _ => rfl, rfl⟩
  | cons b rest ih =>
    cases hb : ty.wants b with
    | false =>
      obtain ⟨k, hk⟩ := ih index
      have hsel := selected_cons_of_neg rest hb
      refine ⟨k, ?_⟩
      have hloop : serializeLoop f true ty offset index (b :: rest) =
          ((serializeLoop f true ty offset index rest).1, b :: (serializeLoop f true ty offset index rest).2) := by
        simp [serializeLoop, hb]
      rw [hloop]
      refine ⟨?_, ?_, ?_, ?_, fun hty => ?_, ?_⟩
      · rw [hsel]; exact hk.count
      · rw [hsel]; exact hk.written
      · rw [hsel]; exact hk.fits
      · rw [hsel]; exact hk.stops
      · rw [hsel, selected_cons_of_neg _ hb]
        exact hk.left hty
      · rw [map_cons, map_cons, hk.cleared]
    | true =>
      have hsel := selected_cons_of_pos rest hb
      by_cases hroom : offset < index + f.blockLen b
      · have hloop : serializeLoop f true ty offset index (b :: rest) = ([], b :: rest) := by
          simp [serializeLoop, hb, hroom]
        rw [hloop]
        refine ⟨0, Nat.zero_le _, rfl, by simp, ?_, fun _ => rfl, rfl⟩
        intro c hc
        rw [hsel] at hc
        cases hc
        simpa [Format.stream] using hroom
      · obtain ⟨k, hk⟩ := ih (index + (f.wire b).length)
        have hloop : serializeLoop f true ty offset index (b :: rest) =
            (f.wire b ++ (serializeLoop f true ty offset (index + (f.wire b).length) rest).1,
              ty.written b :: (serializeLoop f true ty offset (index + (f.wire b).length) rest).2) := by
          simp [serializeLoop, hb, hroom]
        have htake (j : Nat) : (f.stream ((ty.selected (b :: rest)).take (j + 1))).length =
            (f.wire b).length + (f.stream ((ty.selected rest).take j)).length := by
          rw [hsel]
          simp [Format.stream]
        rw [hloop]
        refine ⟨k + 1, ?_, ?_, ?_, ?_, fun hty => ?_, ?_⟩
        · rw [hsel]
          exact Nat.succ_le_succ hk.count
        · rw [hsel, hk.written]
          rfl
        · intro j c hj hc
          cases j with
          | zero =>
            rw [hsel] at hc
            cases hc
            simp only [take_zero, Format.stream, flatMap_nil, length_nil]
            omega
          | succ j =>
            rw [hsel] at hc
            have := hk.fits j c (by omega) hc
            rw [htake]
            omega
        · intro c hc
          rw [hsel] at hc
          have := hk.stops c hc
          rw [htake]
          omega
        · rw [hsel, selected_cons_of_neg _ (written_not_wanted hty b)]
          exact hk.left hty
        · have hwritten : ty.cleared b = ty.written b := if_pos hb
          rw [map_cons, map_cons, hk.cleared, cleared_written, hwritten]

end Pass

/-! ### Two passes -/

/-- The encoding of the longest prefix of the selected blocks that fits into `c` bytes. -/
def LongestFit (f : Format) (selected : Context) (c : Nat) (out : Bytes) : Prop :=
  out.length ≤ c ∧ ∃ k ≤ selected.length, out = f.stream (selected.take k) ∧
    ∀ j ≤ selected.length, (f.stream (selected.take j)).length ≤ c → j ≤ k

/-- The length function is right about the block: it asks for what is written. -/
def Exact (f : Format) (b : Block) : Prop := f.blockLen b = (f.wire b).length

instance (f : Format) (b : Block) : Decidable (Exact f b) := inferInstanceAs (Decidable (_ = _))

variable {f : Format} {ty : SerializeType} {ctx : Context} {r : Bytes × Context} {type : BlockType}

theorem wire_ne_nil {cfg : Config} (hf : cfg.format type = some f) (b : Block) : f.wire b ≠ [] := by
  have hput (w : Width) (n : Nat) : w.put n ≠ [] := by
    cases w <;> simp [Width.put]
  cases type with
  | tlv =>
    obtain ⟨w, -, rfl⟩ := Option.map_eq_some_iff.mp hf
    simp [Format.wire, tlvFormat, hput]
  | dttv =>
    obtain ⟨w, -, rfl⟩ := Option.map_eq_some_iff.mp hf
    simp [Format.wire, dttvFormat]
  | ttlv =>
    obtain ⟨w, -, rfl⟩ := Option.map_eq_some_iff.mp hf
    simp [Format.wire, ttlvFormat]

/-- If the length function is right about the selected blocks, a pass writes as many as
fit. -/
theorem Pass.longestFit {c k : Nat} (h : Pass f ty c 0 ctx k r) (hlen : ∀ b ∈ ty.selected ctx, Exact f b) :
    LongestFit f (ty.selected ctx) c r.1 := by
  have hnext (j : Nat) (b : Block) (hb : (ty.selected ctx)[j]? = some b) :
      (f.stream ((ty.selected ctx).take (j + 1))).length =
        (f.stream ((ty.selected ctx).take j)).length + f.blockLen b := by
    rw [stream_take_succ f hb, length_append, (hlen b (mem_of_getElem? hb) : f.blockLen b = _)]
  rw [h.written]
  refine ⟨?_, k, h.count, rfl, fun j hj hfit => ?_⟩
  · cases k with
    | zero => exact Nat.zero_le c
    | succ k =>
      have hb := getElem?_eq_getElem (show k < (ty.selected ctx).length from h.count)
      have := h.fits k _ (Nat.lt_succ_self k) hb
      rw [hnext k _ hb]
      omega
  · -- a longer prefix has the block in it at which the pass stopped
    by_contra hlt
    have hb := getElem?_eq_getElem (show k < (ty.selected ctx).length by omega)
    have hstop := h.stops _ hb
    have hmono := length_stream_take_mono f (ty.selected ctx) (show k + 1 ≤ j by omega)
    rw [hnext k _ hb] at hmono
    omega

/-- The length a pass without a buffer answers is what a pass with that much room fills
with all selected blocks, and no pass writes more than there is room for. -/
def TwoPasses (cfg : Config) (type : BlockType) (ctx : Context) (ty : SerializeType) : Prop :=
  ∃ f n, cfg.format type = some f ∧
    (∀ len, ∃ out, serialize cfg ctx false len type ty = .ok (out, ctx) ∧ out.length = n) ∧
    (∃ ctx', serialize cfg ctx true n type ty = .ok (f.stream (ty.selected ctx), ctx') ∧
      (f.stream (ty.selected ctx)).length = n) ∧
    ∀ c, ∃ out ctx', serialize cfg ctx true c type ty = .ok (out, ctx') ∧ LongestFit f (ty.selected ctx) c out

section Converse
variable {cfg : Config} (hf : cfg.format type = some f) (h : TwoPasses cfg type ctx ty)
include hf h

/-- The pass into `c` bytes, of which so many blocks are known to fit. -/
theorem TwoPasses.pass (c : Nat) : ∃ k r, Pass f ty c 0 ctx k r ∧ (f.stream ((ty.selected ctx).take k)).length ≤ c ∧
    ∀ j ≤ (ty.selected ctx).length, (f.stream ((ty.selected ctx).take j)).length ≤ c →
      (f.stream ((ty.selected ctx).take j)).length ≤ (f.stream ((ty.selected ctx).take k)).length := by
  obtain ⟨f', n, hf', -, -, hcap⟩ := h
  cases Option.some.inj (hf.symm.trans hf')
  obtain ⟨out, ctx', hcall, hle, k', -, hout, hlongest⟩ := hcap c
  obtain ⟨k, hpass⟩ := serializeLoop_spec f ty c 0 ctx
  rw [((serialize_eq_ok hf).mp hcall).1] at hpass
  refine ⟨k, _, hpass, hpass.written ▸ hle, fun j hj hfit => ?_⟩
  rw [← hpass.written, hout]
  exact length_stream_take_mono f _ (hlongest j hj hfit)

/-- By induction on the place of the block: the first one about which the length function is
wrong shows at a capacity that ends with it. -/
theorem TwoPasses.exact (j : Nat) : ∀ b, (ty.selected ctx)[j]? = some b → Exact f b := by
  induction j using Nat.strong_induction_on with
  | _ j ih =>
    intro b hb
    have hj := (List.getElem?_eq_some_iff.mp hb).1
    have hwire := length_pos_iff.mpr (wire_ne_nil hf b)
    have hnext := congrArg length (stream_take_succ f hb)
    rw [length_append] at hnext
    refine Nat.le_antisymm ?_ (Nat.le_of_not_lt fun hless => ?_)
    · -- with room for the block and no more, it is written
      obtain ⟨k, r, hpass, -, hlong⟩ := h.pass hf (f.stream ((ty.selected ctx).take (j + 1))).length
      have hthrough := hlong (j + 1) hj (Nat.le_refl _)
      have hk : j < k := by
        by_contra hk
        have := length_stream_take_mono f (ty.selected ctx) (Nat.le_of_not_lt hk)
        omega
      have := hpass.fits j b hk hb
      omega
    · -- with less room than it takes, it is not
      obtain ⟨k, r, hpass, hinside, -⟩ := h.pass hf ((f.stream ((ty.selected ctx).take j)).length + f.blockLen b)
      have hk : j < k := by
        by_contra hk
        have hc := getElem?_eq_getElem (show k < (ty.selected ctx).length by omega)
        have hstop := hpass.stops _ hc
        rcases Nat.lt_or_eq_of_le (Nat.le_of_not_lt hk) with hlt | rfl
        · have hexact : f.blockLen _ = _ := ih k hlt _ hc
          have hstep := congrArg length (stream_take_succ f hc)
          rw [length_append] at hstep
          have := length_stream_take_mono f (ty.selected ctx) (show k + 1 ≤ j from hlt)
          omega
        · rw [← Option.some.inj (hb.symm.trans hc)] at hstop
          omega
      have := length_stream_take_mono f (ty.selected ctx) (show j + 1 ≤ k from hk)
      omega

end Converse

/-- **Asking first, and capacity.** In every build and each of its formats, for every
context and selection: both are right exactly if the length function is right about every
selected block. -/
theorem serialize_in_two_passes (cfg : Config) (type : BlockType) (f : Format) (ctx : Context) (ty : SerializeType)
    (hf : cfg.format type = some f) :
    TwoPasses cfg type ctx ty ↔ ∀ b ∈ ty.selected ctx, Exact f b := by
  refine ⟨fun h b hb => ?_, fun hexact => ?_⟩
  · obtain ⟨j, hj⟩ := getElem?_of_mem hb
    exact h.exact hf j b hj
  have hcap (c : Nat) : LongestFit f (ty.selected ctx) c (serializeLoop f true ty c 0 ctx).1 := by
    obtain ⟨k, hpass⟩ := serializeLoop_spec f ty c 0 ctx
    exact hpass.longestFit hexact
  refine ⟨f, (f.stream (ty.selected ctx)).length, hf, fun len => ?_, ?_, fun c => ?_⟩
  · exact ⟨_, (serialize_eq_ok hf).mpr ⟨serializeLoop_null .., fun h => by cases h⟩, rfl⟩
  · obtain ⟨-, k, hk, hout, hlongest⟩ := hcap (f.stream (ty.selected ctx)).length
    have hall := hlongest (ty.selected ctx).length (Nat.le_refl _) (by rw [take_length])
    rw [take_of_length_le hall] at hout
    exact ⟨_, (serialize_eq_ok hf).mpr ⟨Prod.ext hout rfl, fun _ => Nat.le_refl _⟩, rfl⟩
  · exact ⟨_, _, (serialize_eq_ok hf).mpr ⟨rfl, fun _ => (hcap c).1⟩, hcap c⟩

theorem serialize_in_two_passes_two : TwoPasses mixedWidths .dttv twoBlocks .all :=
  (serialize_in_two_passes mixedWidths .dttv _ twoBlocks .all rfl).mpr (by decide)

/-- TTLV asks for the widths of the struct: into a buffer of the length it answers it does
not write the block. And a block of a type the build does not know is written past the
end of the buffer. -/
theorem length_functions_wrong :
    (∃ ctx ty, mixedWidths.widths .ttlv = some ⟨.one, .one⟩ ∧ ¬ TwoPasses mixedWidths .ttlv ctx ty) ∧
      ∃ ctx c, serialize mixedWidths ctx true c .dttv .all = .error .overrun := by
  refine ⟨⟨[⟨7, 2, [1], false, false⟩], .all, rfl, fun h => ?_⟩, [⟨7, 0xFF, [1], false, false⟩], 3, by decide⟩
  exact absurd (h.exact rfl 0 _ rfl) (by decide)

/-! ### Reporting in pieces -/

/-- Calls of `qm_tlv_serialize` with room for `caps i`, `caps (i + 1)` and so on bytes, until
one writes nothing: the messages, and the context; `none` if that takes more than
`rounds` calls. -/
def report (cfg : Config) (type : BlockType) (ty : SerializeType) (caps : Nat → Nat) :
    Nat → Nat → Context → Option (List Bytes × Context)
  | 0, _, _ => none
  | rounds + 1, i, ctx =>
    match serialize cfg ctx true (caps i) type ty with
    | .error _ => none
    | .ok (out, ctx) =>
      if out = [] then some ([], ctx)
      else (report cfg type ty caps rounds (i + 1) ctx).map fun r => (out :: r.1, r.2)

/-- The messages are whole blocks, together the selected ones in their order, and the
flags of these are gone. -/
def Reported (cfg : Config) (type : BlockType) (ty : SerializeType) (caps : Nat → Nat) (ctx : Context) : Prop :=
  ∃ f, cfg.format type = some f ∧ ∀ rounds, (ty.selected ctx).length < rounds →
    ∃ groups : List Context, report cfg type ty caps rounds 0 ctx = some (groups.map f.stream, ctx.map ty.cleared) ∧
      groups.flatten = ty.selected ctx

/-- One call writes at least one of the selected blocks if there are any, and leaves the
others. -/
theorem Pass.advances {c k : Nat} (h : Pass f ty c 0 ctx k r) (hroom : ∀ b ∈ ty.selected ctx, f.blockLen b ≤ c)
    (hne : ty.selected ctx ≠ []) : 0 < k := by
  obtain ⟨b, rest, hsel⟩ := exists_cons_of_ne_nil hne
  refine Nat.pos_of_ne_zero fun h0 => ?_
  subst h0
  have hstop := h.stops b (by rw [hsel]; rfl)
  have := hroom b (by rw [hsel]; exact mem_cons_self)
  simp only [take_zero, Format.stream, flatMap_nil, length_nil] at hstop
  omega

theorem map_cleared_of_selected_nil (h : ty.selected ctx = []) : ctx.map ty.cleared = ctx := by
  have hnone (b : Block) (hb : b ∈ ctx) : ty.cleared b = b := by
    have := filter_eq_nil_iff.mp h b hb
    exact if_neg this
  rw [map_congr_left hnone, map_id']

/-- The run of calls, from any of them on. -/
theorem report_spec {cfg : Config} {caps : Nat → Nat} (hf : cfg.format type = some f) (hty : ty ≠ .all)
    (rounds i : Nat) (ctx : Context) (hexact : ∀ b ∈ ty.selected ctx, Exact f b)
    (hroom : ∀ i, ∀ b ∈ ty.selected ctx, f.blockLen b ≤ caps i) (hrounds : (ty.selected ctx).length < rounds) :
    ∃ groups : List Context, report cfg type ty caps rounds i ctx = some (groups.map f.stream, ctx.map ty.cleared) ∧
      groups.flatten = ty.selected ctx := by
  induction rounds generalizing i ctx with
  | zero => omega
  | succ rounds ih =>
    obtain ⟨k, hpass⟩ := serializeLoop_spec f ty (caps i) 0 ctx
    generalize hr : serializeLoop f true ty (caps i) 0 ctx = r at hpass
    have hcall : serialize cfg ctx true (caps i) type ty = .ok r :=
      (serialize_eq_ok hf).mpr ⟨hr, fun _ => (hpass.longestFit hexact).1⟩
    obtain ⟨out, ctx'⟩ := r
    rw [report, hcall]
    have hleft := hpass.left hty
    have hcleared := hpass.cleared
    have hwritten := hpass.written
    dsimp only at hleft hcleared hwritten ⊢
    by_cases hnil : ty.selected ctx = []
    · rw [hnil, take_nil] at hwritten
      rw [hnil, drop_nil] at hleft
      refine ⟨[], ?_, by rw [hnil]; rfl⟩
      rw [if_pos (show out = [] from hwritten), ← hcleared, map_cleared_of_selected_nil hleft]
      rfl
    · have hk := hpass.advances (hroom i) hnil
      have hout : out ≠ [] := by
        obtain ⟨b, rest, hsel⟩ := exists_cons_of_ne_nil hnil
        obtain ⟨k, rfl⟩ : ∃ j, k = j + 1 := Nat.exists_eq_succ_of_ne_zero (by omega)
        rw [hwritten, hsel, take_succ_cons, Format.stream, flatMap_cons]
        exact fun h => wire_ne_nil hf b (append_eq_nil_iff.mp h).1
      have hstill (b : Block) (hb : b ∈ ty.selected ctx') : b ∈ ty.selected ctx := by
        rw [hleft] at hb
        exact mem_of_mem_drop hb
      have hcount : (ty.selected ctx').length < rounds := by
        have := hpass.count
        rw [hleft, length_drop]
        omega
      obtain ⟨groups, hrest, hflat⟩ := ih (i + 1) ctx' (fun b hb => hexact b (hstill b hb))
        (fun i b hb => hroom i b (hstill b hb)) hcount
      refine ⟨(ty.selected ctx).take k :: groups, ?_, ?_⟩
      · rw [if_neg hout, hrest, hwritten, hcleared]
        rfl
      · rw [flatten_cons, hflat, hleft, take_append_drop]

/-- **Reporting loses nothing.** Every flagged block is written exactly once and in order,
nothing else is, and exactly the flags of those are cleared: for every build, format and
context, and all capacities that hold each flagged block, if the length function is right
about the flagged blocks. -/
theorem reporting_loses_nothing (cfg : Config) (type : BlockType) (f : Format) (ctx : Context) (ty : SerializeType)
    (caps : Nat → Nat) (hf : cfg.format type = some f) (hty : ty ≠ .all)
    (hcaps : ∀ i, ∀ b ∈ ty.selected ctx, (f.wire b).length ≤ caps i) (hexact : ∀ b ∈ ty.selected ctx, Exact f b) :
    Reported cfg type ty caps ctx :=
  ⟨f, hf, fun rounds hrounds =>
    report_spec hf hty rounds 0 ctx hexact (fun i b hb => (hexact b hb).trans_le (hcaps i b hb)) hrounds⟩

/-- Two blocks of which the second is flagged, as a message of its own. -/
theorem reporting_loses_nothing_two :
    Reported mixedWidths .dttv .update (fun _ => 10) [⟨1, 2, [9], false, false⟩, ⟨7, 11, [3, 4, 5, 6, 7], true, false⟩] :=
  reporting_loses_nothing mixedWidths .dttv _ _ .update _ rfl (by decide) (fun _ => by decide) (by decide)

/-- TTLV next to a wider format: with room for the flagged block's three bytes and for
nothing more, no call ever writes it. -/
theorem flagged_block_never_written :
    ∃ (cfg : Config) (type : BlockType) (w : Widths) (ctx : Context) (caps : Nat → Nat), cfg.widths type = some w ∧
      (∀ f, cfg.format type = some f → ∀ i, ∀ b ∈ SerializeType.update.selected ctx, (f.wire b).length ≤ caps i) ∧
      ¬ Reported cfg type .update caps ctx := by
  refine ⟨mixedWidths, .ttlv, ⟨.one, .one⟩, [⟨7, 2, [1], true, false⟩], fun _ => 3, rfl, ?_, ?_⟩
  · intro f hf _ b hb
    cases hf
    cases mem_singleton.mp hb
    show 3 ≤ 3
    decide
  · intro ⟨f, _, hall⟩
    obtain ⟨groups, hreport, -⟩ := hall 2 (by decide)
    have hstuck : report mixedWidths .ttlv .update (fun _ => 3) 2 0 [⟨7, 2, [1], true, false⟩] =
        some ([], [⟨7, 2, [1], true, false⟩]) := by decide
    have hflag : [(⟨7, 2, [1], true, false⟩ : Block)] = [⟨7, 2, [1], false, false⟩] :=
      congrArg Prod.snd (Option.some.inj hreport)
    revert hflag
    decide

end Qumios.Tlv
