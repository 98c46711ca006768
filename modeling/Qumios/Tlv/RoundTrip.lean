import Qumios.Tlv.Codec

/-! What is serialized is read back.

The proof is the same for the three formats once a format is known to *carry* a
block: its header is read back to the tag, the type and the length, and the room
the serializer asks for covers what it writes. TLV carries every block that fits its
widths; DTTV and TTLV those whose type the build knows besides. A block of a type it
does not know is written, and no reader takes it. -/
namespace Qumios.Tlv
open Wire List

/-! ### Formats that carry a block -/

def BlockType.shows (type : BlockType) (b : Block) : UInt8 :=
  match type with
  | .tlv => 0
  | .dttv | .ttlv => b.type

structure Format.Carries (f : Format) (type : BlockType) (b : Block) : Prop where
  read : ∀ rest, f.readHeader (f.header b ++ rest) = .ok (⟨b.tag, type.shows b, b.len⟩, rest)
  room : (f.wire b).length ≤ f.blockLen b

/-- The claims of a block on the wire: its tag and its length fit, it has a value, and a
type with a size has a value of that size. -/
structure Fits (cfg : Config) (type : BlockType) (w : Widths) (b : Block) : Prop where
  tag : b.tag < w.tag.limit
  length : b.len < w.length.limit
  value : b.value ≠ []
  sized : type ≠ .tlv → ∀ n, dataTypeLen cfg b.type = some n → n ≠ 0 → b.len = n

def Known (cfg : Config) (type : BlockType) (b : Block) : Prop :=
  type ≠ .tlv → dataTypeLen cfg b.type ≠ none

section Carries
variable {cfg : Config} {w : Widths} {b : Block} {n : Nat}

theorem readLen_putLen (hlen : b.len < w.length.limit) (hn : dataTypeLen cfg b.type = some n)
    (hsized : n ≠ 0 → b.len = n) (rest : Bytes) : readLen w n (putLen cfg w b ++ rest) = .ok (b.len, rest) := by
  by_cases h0 : n = 0
  · subst h0
    rw [readLen, if_pos rfl, putLen, if_pos hn, readNumber_put hlen]
  · have hne : dataTypeLen cfg b.type ≠ some 0 := by
      rw [hn]
      exact fun h => h0 (Option.some.inj h)
    rw [readLen, if_neg h0, putLen, if_neg hne, hsized h0]
    rfl

theorem putLen_typedLen (lengthSize : Nat) (hn : dataTypeLen cfg b.type = some n) (hlong : n ≠ 0 → b.len ≤ n)
    (hsize : w.length.size ≤ lengthSize) : (putLen cfg w b).length + b.len ≤ typedLen cfg lengthSize b := by
  cases n with
  | zero => simpa [putLen, typedLen, hn] using hsize
  | succ n => simpa [putLen, typedLen, hn] using hlong

theorem tlv_room (w : Widths) (b : Block) : ((tlvFormat w).wire b).length = (tlvFormat w).blockLen b := by
  simp [Format.wire, tlvFormat, Block.len, Nat.add_assoc]

theorem dttv_room (hn : dataTypeLen cfg b.type = some n) (hlong : n ≠ 0 → b.len ≤ n) :
    ((dttvFormat cfg w).wire b).length ≤ (dttvFormat cfg w).blockLen b := by
  have := putLen_typedLen (w := w) w.length.size hn hlong (Nat.le_refl _)
  simp only [Format.wire, dttvFormat, length_append, length_cons, Width.length_put]
  simp only [Block.len] at this
  omega

theorem structWidth_ge (f : Widths → Width) (h : cfg.ttlv = some w) : (f w).size ≤ (structWidth f cfg).size := by
  cases hw : f w with
  | one => cases structWidth f cfg <;> decide
  | two => simp [structWidth, h, hw]

theorem ttlv_room (hcfg : cfg.ttlv = some w) (hn : dataTypeLen cfg b.type = some n) (hlong : n ≠ 0 → b.len ≤ n) :
    ((ttlvFormat cfg w).wire b).length ≤ (ttlvFormat cfg w).blockLen b := by
  have hlen := putLen_typedLen cfg.lengthByte.size hn hlong (structWidth_ge Widths.length hcfg)
  have htag : w.tag.size ≤ cfg.tagByte.size := structWidth_ge Widths.tag hcfg
  simp only [Format.wire, ttlvFormat, length_append, length_cons, Width.length_put]
  simp only [Block.len] at hlen
  omega

theorem tlv_carries (h : Fits cfg .tlv w b) : (tlvFormat w).Carries .tlv b where
  read rest := by
    simp only [tlvFormat, append_assoc, readNumber_put h.tag, readNumber_put h.length, bind, Except.bind]
    rfl
  room := (tlv_room w b).le

theorem dttv_carries (h : Fits cfg .dttv w b) (hknown : Known cfg .dttv b) : (dttvFormat cfg w).Carries .dttv b := by
  obtain ⟨n, hn⟩ := Option.ne_none_iff_exists'.mp (hknown (by decide))
  have hsized := h.sized (by decide) n hn
  constructor
  · intro rest
    simp only [dttvFormat, cons_append, append_assoc, hn, readNumber_put h.tag,
      readLen_putLen h.length hn hsized, bind, Except.bind]
    rfl
  · exact dttv_room hn fun h0 => (hsized h0).le

theorem ttlv_carries (hcfg : cfg.ttlv = some w) (h : Fits cfg .ttlv w b) (hknown : Known cfg .ttlv b) :
    (ttlvFormat cfg w).Carries .ttlv b := by
  obtain ⟨n, hn⟩ := Option.ne_none_iff_exists'.mp (hknown (by decide))
  have hsized := h.sized (by decide) n hn
  constructor
  · intro rest
    simp only [ttlvFormat, append_assoc, cons_append, readNumber_put h.tag, hn,
      readLen_putLen h.length hn hsized, bind, Except.bind]
    rfl
  · exact ttlv_room hcfg hn fun h0 => (hsized h0).le

end Carries

variable {type : BlockType} {f : Format}

/-- Every supported format carries the blocks that fit it and are known to the build. -/
theorem format_carries {cfg : Config} {w : Widths} (hw : cfg.widths type = some w) :
    ∃ f, cfg.format type = some f ∧ ∀ b, Fits cfg type w b → Known cfg type b → f.Carries type b := by
  cases type with
  | tlv =>
    have hw : cfg.tlv = some w := hw
    exact ⟨tlvFormat w, by rw [Config.format, hw]; rfl, fun b h _ => tlv_carries h⟩
  | dttv =>
    have hw : cfg.dttv = some w := hw
    exact ⟨dttvFormat cfg w, by rw [Config.format, hw]; rfl, fun b h hk => dttv_carries h hk⟩
  | ttlv =>
    have hw : cfg.ttlv = some w := hw
    exact ⟨ttlvFormat cfg w, by rw [Config.format, hw]; rfl, fun b h hk => ttlv_carries hw h hk⟩

/-! ### The loops -/

def Format.stream (f : Format) (ctx : Context) : Bytes := ctx.flatMap f.wire

/-- With room for every block, every block is written. -/
theorem serializeLoop_all {offset : Nat} {ctx : Context} (index : Nat)
    (hcarry : ∀ b ∈ ctx, (f.wire b).length ≤ f.blockLen b) (hroom : index + (ctx.map f.blockLen).sum ≤ offset) :
    (serializeLoop f true .all offset index ctx).1 = f.stream ctx ∧ index + (f.stream ctx).length ≤ offset := by
  induction ctx generalizing index with
  | nil => exact ⟨rfl, hroom⟩
  | cons b rest ih =>
    have hb := hcarry b mem_cons_self
    rw [map_cons, sum_cons] at hroom
    have hfits : ¬ offset < index + f.blockLen b := by omega
    have hrest := ih (index + (f.wire b).length) (fun c hc => hcarry c (mem_cons_of_mem _ hc)) (by omega)
    refine ⟨?_, ?_⟩
    · simp only [serializeLoop, SerializeType.wants, Bool.not_true, Bool.false_eq_true, if_false, Bool.true_and,
        decide_eq_true_eq, if_neg hfits, hrest.1]
      rfl
    · simp only [Format.stream, flatMap_cons, length_append]
      simpa only [Format.stream, Nat.add_assoc] using hrest.2

def BlockType.read (type : BlockType) (b : Block) : Block := ⟨b.tag, type.shows b, b.value, true, false⟩

theorem readBlock_wire {cfg : Config} {b : Block} (h : f.Carries type b) (hvalue : b.value ≠ []) (rest : Bytes) :
    readBlock cfg f (true, true) (f.wire b ++ rest) = .ok (⟨b.tag, type.shows b, b.value, false, false⟩, rest) := by
  have hlen : ¬ (b.value ++ rest).length < b.len := by simp [Block.len]
  simp only [readBlock, Format.wire, append_assoc, h.read, bind, Except.bind, Bool.not_true,
    Bool.false_eq_true, if_false, if_neg hlen]
  rw [Block.len, take_left, drop_left, packBytes_ok hvalue]
  rfl

/-- The reader takes the blocks off the wire one by one, behind those it has. -/
theorem deserializeLoop_stream (cfg : Config) {ctx : Context} (hcarry : ∀ b ∈ ctx, f.Carries type b ∧ b.value ≠ [])
    (rounds i : Nat) (done : Context) (htags : (done.map Block.tag ++ ctx.map Block.tag).Nodup)
    (hrounds : (f.stream ctx).length ≤ rounds) :
    deserializeLoop cfg f (fun _ => (true, true)) rounds i (f.stream ctx) done =
      (done ++ ctx.map type.read, .ok ()) := by
  induction ctx generalizing rounds i done with
  | nil => cases rounds <;> simp [deserializeLoop, Format.stream]
  | cons b rest ih =>
    obtain ⟨hb, hvalue⟩ := hcarry b mem_cons_self
    have hstream : f.stream (b :: rest) = f.wire b ++ f.stream rest := rfl
    have hwire : (f.wire b).length ≠ 0 := by
      rw [Format.wire, length_append]
      have := length_pos_iff.mpr hvalue
      omega
    rw [hstream, length_append] at hrounds
    obtain ⟨rounds, rfl⟩ : ∃ r, rounds = r + 1 := Nat.exists_eq_succ_of_ne_zero (by omega)
    have hne : f.wire b ++ f.stream rest ≠ [] := by
      intro h
      rw [(append_eq_nil_iff.mp h).1] at hwire
      exact hwire rfl
    have hfresh : b.tag ∉ done.map Block.tag := by
      intro h
      exact (nodup_append.mp htags).2.2 b.tag h b.tag mem_cons_self rfl
    rw [hstream, deserializeLoop, if_neg hne, readBlock_wire hb hvalue]
    simp only [blockAdd_fresh (b := ⟨b.tag, type.shows b, b.value, false, false⟩) hfresh]
    rw [ih (fun c hc => hcarry c (mem_cons_of_mem _ hc)) rounds (i + 1) _ (by simpa using htags) (by omega)]
    simp [BlockType.read]

/-! ### The round trip -/

def BlockType.content (type : BlockType) (b : Block) : Nat × UInt8 × Nat × Bytes :=
  (b.tag, type.shows b, b.len, b.value)

/-- All blocks serialized into a buffer of `len` bytes, and the result deserialized into
an empty context: the same blocks in the same order. (An empty message is an error to
the reader, and leaves the context empty.) -/
def RoundTrips (cfg : Config) (type : BlockType) (len : Nat) (ctx : Context) : Prop :=
  ∃ msg ctx', serialize cfg ctx true len type .all = .ok (msg, ctx') ∧
    (deserialize cfg (fun _ => (true, true)) [] msg type).1.map type.content = ctx.map type.content ∧
    (ctx ≠ [] → (deserialize cfg (fun _ => (true, true)) [] msg type).2 = .ok ())

def roomFor (cfg : Config) (type : BlockType) (ctx : Context) : Nat :=
  match cfg.format type with
  | none => 0
  | some f => (ctx.map f.blockLen).sum

/-- **The round trip.** In every build and each of its formats, a context with distinct
tags whose blocks fit the wire and have types the build knows is read back as it was
written, if the buffer has the room the serializer asks for. -/
theorem context_roundTrip (cfg : Config) (type : BlockType) (w : Widths) (ctx : Context) (len : Nat)
    (hw : cfg.widths type = some w) (htags : (ctx.map Block.tag).Nodup)
    (hfits : ∀ b ∈ ctx, Fits cfg type w b) (hknown : ∀ b ∈ ctx, Known cfg type b)
    (hroom : roomFor cfg type ctx ≤ len) : RoundTrips cfg type len ctx := by
  obtain ⟨f, hf, hcarries⟩ := format_carries hw
  have hcarry : ∀ b ∈ ctx, f.Carries type b ∧ b.value ≠ [] := fun b hb =>
    ⟨hcarries b (hfits b hb) (hknown b hb), (hfits b hb).value⟩
  have hroom : 0 + (ctx.map f.blockLen).sum ≤ len := by
    simpa [roomFor, hf] using hroom
  obtain ⟨hwritten, hinside⟩ := serializeLoop_all 0 (fun b hb => (hcarry b hb).1.room) hroom
  have hread := deserializeLoop_stream cfg hcarry (f.stream ctx).length 0 [] (by simpa using htags)
    (Nat.le_refl _)
  have hcontent : (ctx.map type.read).map type.content = ctx.map type.content := by
    rw [map_map]
    cases type <;> rfl
  refine ⟨f.stream ctx, (serializeLoop f true .all len 0 ctx).2, ?_, ?_⟩
  · rw [← hwritten]
    exact (serialize_eq_ok hf).mpr ⟨rfl, fun _ => by rw [hwritten]; omega⟩
  · by_cases hnil : ctx = []
    · subst hnil
      simp [deserialize, hf, deserializeWith, Format.stream]
    · have hne : (f.stream ctx).length ≠ 0 := by
        obtain ⟨b, rest, rfl⟩ := exists_cons_of_ne_nil hnil
        have := length_pos_iff.mpr (hcarry b mem_cons_self).2
        simp only [Format.stream, flatMap_cons, Format.wire, length_append]
        omega
      rw [deserialize, hf]
      simp only [deserializeWith, if_neg hne, hread, nil_append]
      exact ⟨hcontent, fun _ => trivial⟩

/-- Every format, with the widths of DTTV twice those of the others. -/
def mixedWidths : Config where
  tlv := some ⟨.one, .one⟩
  dttv := some ⟨.two, .two⟩
  ttlv := some ⟨.one, .one⟩
  dttvForceUpdate := true
  int16 := true
  int32 := true
  int64 := false
  float32 := true
  float64 := false
  bytes := true
  bufSize := 4

def twoBlocks : Context := [⟨0x1234, 0x84, [1, 2], false, false⟩, ⟨7, 11, [3, 4, 5, 6, 7], false, false⟩]

theorem context_roundTrip_two :
    roomFor mixedWidths .dttv twoBlocks ≤ 15 ∧ RoundTrips mixedWidths .dttv 15 twoBlocks := by
  refine ⟨by decide, context_roundTrip mixedWidths .dttv ⟨.two, .two⟩ twoBlocks 15 rfl (by decide) ?_ ?_ (by decide)⟩
  · intro b hb
    rcases mem_cons.mp hb with rfl | hb
    · exact ⟨by decide, by decide, by decide, fun _ n hn _ => Option.some.inj hn⟩
    · cases mem_singleton.mp hb
      exact ⟨by decide, by decide, by decide, fun _ n hn h0 => absurd (Option.some.inj hn).symm h0⟩
  · intro b hb
    rcases mem_cons.mp hb with rfl | hb
    · exact fun _ => by decide
    · cases mem_singleton.mp hb
      exact fun _ => by decide

/-- The room TTLV asks for is more than it fills where another format is wider: into a
buffer of the length it answers when asked, it does not write the block. -/
example :
    (serialize mixedWidths [⟨7, 2, [1], false, false⟩] false 0 .ttlv .all).map (fun r => r.1.length) = .ok 3 ∧
    (serialize mixedWidths [⟨7, 2, [1], false, false⟩] true 3 .ttlv .all).map (fun r => r.1) = .ok [] := by
  decide

/-- A block of the type `QM_DTTV_TYPE_NONE` fits the wire, is written, and is not read. -/
theorem unknown_type_not_read :
    ∃ (cfg : Config) (type : BlockType) (w : Widths) (ctx : Context), cfg.widths type = some w ∧
      (ctx.map Block.tag).Nodup ∧ (∀ b ∈ ctx, Fits cfg type w b) ∧ ∀ len, ¬ RoundTrips cfg type len ctx := by
  refine ⟨mixedWidths, .dttv, ⟨.two, .two⟩, [⟨7, 0xFF, [1], false, false⟩], rfl, by decide, ?_, ?_⟩
  · intro b hb
    cases mem_singleton.mp hb
    exact ⟨by decide, by decide, by decide, fun _ n hn => by cases hn⟩
  · intro len ⟨msg, ctx', hwritten, hread, _⟩
    have hmsg : msg = [] ∨ msg = [0xFF, 0, 7, 1] := by
      have hloop := congrArg Prod.fst ((serialize_eq_ok rfl).mp hwritten).1
      rw [serializeLoop] at hloop
      split at hloop
      · next hskip => exact absurd hskip (by decide)
      · split at hloop
        · exact .inl hloop.symm
        · exact .inr hloop.symm
    rcases hmsg with rfl | rfl
    · exact absurd hread (by decide)
    · exact absurd hread (by decide)

end Qumios.Tlv
