import Qumios.Tlv.RoundTrip

/-! What the readers accept.

A *record* is a block that fits the wire and is known to the build, as the reader
leaves it in the context. A message is read to its end exactly if it is a concatenation
of records whose tags are new, and then these are what the context has more; else the
context has the records in front of the place where no such record starts.

The TTLV reader takes the type behind a tag without a look at what is left. A message
that ends right there is refused like every other one that is cut, but the byte behind it
has been read. -/
namespace Qumios.Tlv
open Wire List

/-- A block as a reader makes it of what it finds on the wire. -/
structure Record (cfg : Config) (type : BlockType) (w : Widths) (b : Block) : Prop extends Fits cfg type w b where
  known : Known cfg type b
  asRead : type.read b = b

/-- Records that can follow one another into a context: their tags are new. -/
structure Acceptable (cfg : Config) (type : BlockType) (w : Widths) (ctx records : Context) : Prop where
  record : ∀ b ∈ records, Record cfg type w b
  fresh : ∀ b ∈ records, b.tag ∉ ctx.map Block.tag
  distinct : (records.map Block.tag).Nodup

def Offends (cfg : Config) (type : BlockType) (w : Widths) (f : Format) (ctx : Context) (rest : Bytes) : Prop :=
  ∀ b rest', Record cfg type w b → b.tag ∉ ctx.map Block.tag → rest ≠ f.wire b ++ rest'

def EndsBehindTag (cfg : Config) (type : BlockType) (w : Widths) (f : Format) (ctx : Context) (msg : Bytes) : Prop :=
  ∃ records last, Acceptable cfg type w ctx records ∧ msg = f.stream records ++ last ∧ last.length = w.tag.size

/-! ### Headers -/

/-- What a header that was read says: it stands in front of the rest, as that of every block
it fits. -/
structure Header.Found (cfg : Config) (type : BlockType) (w : Widths) (f : Format) (bytes : Bytes) (h : Header)
    (rest : Bytes) : Prop where
  tag : h.tag < w.tag.limit
  len : h.len < w.length.limit
  untyped : type = .tlv → h.type = 0
  typed : type ≠ .tlv → ∃ n, dataTypeLen cfg h.type = some n ∧ (n ≠ 0 → h.len = n)
  bytes : ∀ b : Block, b.tag = h.tag → b.type = h.type → b.len = h.len → bytes = f.header b ++ rest

section Headers
variable {cfg : Config} {type : BlockType} {w : Widths} {f : Format} {h : Header} {bytes rest : Bytes}

theorem readLen_eq_ok {t : UInt8} {n len : Nat} (h : readLen w n bytes = .ok (len, rest))
    (hn : dataTypeLen cfg t = some n) :
    len < w.length.limit ∧ (n ≠ 0 → len = n) ∧
      ∀ b : Block, b.type = t → b.len = len → bytes = putLen cfg w b ++ rest := by
  unfold readLen at h
  split at h
  · next h0 =>
    obtain ⟨hlimit, hbytes⟩ := readNumber_eq_ok h
    refine ⟨hlimit, fun hne => absurd h0 hne, fun b ht hlen => ?_⟩
    rw [putLen, if_pos (by rw [ht, hn, h0]), hlen]
    exact hbytes
  · next h0 =>
    cases h
    have hsmall := dataTypeLen_le hn
    refine ⟨?_, fun _ => rfl, fun b ht _ => ?_⟩
    · cases w.length <;> simp only [Width.limit] <;> omega
    · rw [putLen, if_neg (by rw [ht, hn]; exact fun h => h0 (Option.some.inj h))]
      rfl

theorem tlv_found (hread : (tlvFormat w).readHeader bytes = .ok (h, rest)) :
    h.Found cfg .tlv w (tlvFormat w) bytes rest := by
  obtain ⟨⟨tag, rest₁⟩, htag, hread⟩ := bind_eq_ok hread
  obtain ⟨⟨len, rest₂⟩, hlen, hread⟩ := bind_eq_ok hread
  cases hread
  obtain ⟨htagLt, rfl⟩ := readNumber_eq_ok htag
  obtain ⟨hlenLt, rfl⟩ := readNumber_eq_ok hlen
  refine ⟨htagLt, hlenLt, fun _ => rfl, fun hne => absurd rfl hne, fun b hbtag _ hblen => ?_⟩
  simp only [tlvFormat, hbtag, hblen, append_assoc]

theorem dttv_found (hread : (dttvFormat cfg w).readHeader bytes = .ok (h, rest)) :
    h.Found cfg .dttv w (dttvFormat cfg w) bytes rest := by
  cases bytes with
  | nil => cases hread
  | cons t bytes =>
    simp only [dttvFormat] at hread
    split at hread
    · cases hread
    · next n hn =>
      obtain ⟨⟨tag, rest₁⟩, htag, hread⟩ := bind_eq_ok hread
      obtain ⟨⟨len, rest₂⟩, hlen, hread⟩ := bind_eq_ok hread
      cases hread
      obtain ⟨htagLt, rfl⟩ := readNumber_eq_ok htag
      obtain ⟨hlenLt, hsized, hbytes⟩ := readLen_eq_ok hlen hn
      refine ⟨htagLt, hlenLt, fun he => (by cases he), fun _ => ⟨n, hn, hsized⟩, fun b hbtag hbtype hblen => ?_⟩
      simp only [dttvFormat, hbtag, hbtype, cons_append, append_assoc]
      rw [← hbytes b hbtype hblen]

theorem ttlv_found (hread : (ttlvFormat cfg w).readHeader bytes = .ok (h, rest)) :
    h.Found cfg .ttlv w (ttlvFormat cfg w) bytes rest := by
  obtain ⟨⟨tag, rest₁⟩, htag, htyped⟩ := bind_eq_ok hread
  obtain ⟨htagLt, rfl⟩ := readNumber_eq_ok htag
  cases rest₁ with
  | nil => cases htyped
  | cons t rest₁ =>
    dsimp only at htyped
    split at htyped
    · cases htyped
    · next n hn =>
      obtain ⟨⟨len, rest₂⟩, hlen, hread⟩ := bind_eq_ok htyped
      cases hread
      obtain ⟨hlenLt, hsized, hbytes⟩ := readLen_eq_ok hlen hn
      refine ⟨htagLt, hlenLt, fun he => (by cases he), fun _ => ⟨n, hn, hsized⟩, fun b hbtag hbtype hblen => ?_⟩
      simp only [ttlvFormat, hbtag, hbtype, cons_append, append_assoc]
      rw [← hbytes b hbtype hblen]

theorem readHeader_eq_ok (hw : cfg.widths type = some w) (hf : cfg.format type = some f)
    (hread : f.readHeader bytes = .ok (h, rest)) : h.Found cfg type w f bytes rest := by
  cases type with
  | tlv =>
    rw [Config.format, show cfg.tlv = some w from hw] at hf
    cases hf
    exact tlv_found hread
  | dttv =>
    rw [Config.format, show cfg.dttv = some w from hw] at hf
    cases hf
    exact dttv_found hread
  | ttlv =>
    rw [Config.format, show cfg.ttlv = some w from hw] at hf
    cases hf
    exact ttlv_found hread

end Headers

/-! ### One record -/

section Records
variable {cfg : Config} {type : BlockType} {w : Widths} {f : Format} {b : Block} {bytes rest : Bytes}

/-- What is taken off a message is a record, once it is in a context. -/
theorem readBlock_eq_ok (hw : cfg.widths type = some w) (hf : cfg.format type = some f) {mem : Bool × Bool}
    (hread : readBlock cfg f mem bytes = .ok (b, rest)) :
    Record cfg type w { b with update := true } ∧ bytes = f.wire { b with update := true } ++ rest := by
  unfold readBlock at hread
  split at hread
  · cases hread
  · obtain ⟨⟨h, rest₁⟩, hheader, hread⟩ := bind_eq_ok hread
    dsimp only at hread
    split at hread
    · cases hread
    · next hlong =>
      obtain ⟨value, hvalue, hread⟩ := bind_eq_ok hread
      cases hread
      obtain ⟨hne, rfl⟩ := packBytes_eq_ok hvalue
      have hfound := readHeader_eq_ok hw hf hheader
      have hlen : (rest₁.take h.len).length = h.len := length_take_of_le (Nat.le_of_not_lt hlong)
      refine ⟨⟨⟨hfound.tag, ?_, hne, ?_⟩, ?_, ?_⟩, ?_⟩
      · simpa only [Block.len, hlen] using hfound.len
      · intro htype n hn h0
        obtain ⟨m, hm, hsized⟩ := hfound.typed htype
        cases Option.some.inj (hn.symm.trans hm)
        simpa only [Block.len, hlen] using hsized h0
      · intro htype
        obtain ⟨m, hm, -⟩ := hfound.typed htype
        exact Option.ne_none_iff_exists'.mpr ⟨m, hm⟩
      · cases type with
        | tlv => simp only [BlockType.read, BlockType.shows, hfound.untyped rfl]
        | dttv => rfl
        | ttlv => rfl
      · rw [Format.wire, append_assoc, take_append_drop]
        exact hfound.bytes _ rfl rfl hlen

theorem Record.readBlock (hb : Record cfg type w b) (hw : cfg.widths type = some w)
    (hf : cfg.format type = some f) (rest : Bytes) :
    readBlock cfg f (true, true) (f.wire b ++ rest) = .ok ({ b with update := false }, rest) := by
  obtain ⟨f', hf', hcarries⟩ := format_carries hw
  cases Option.some.inj (hf.symm.trans hf')
  have hread : Tlv.readBlock cfg f (true, true) (f.wire b ++ rest) = _ :=
    readBlock_wire (hcarries b hb.toFits hb.known) hb.value rest
  rw [hread, ← hb.asRead]
  cases type <;> rfl

theorem Format.wire_ne_nil (f : Format) (hb : b.value ≠ []) (rest : Bytes) : f.wire b ++ rest ≠ [] := by
  intro h
  exact hb (append_eq_nil_iff.mp (append_eq_nil_iff.mp h).1).2

theorem Record.unique {b' : Block} {rest' : Bytes} (hb : Record cfg type w b) (hb' : Record cfg type w b')
    (hw : cfg.widths type = some w) (hf : cfg.format type = some f)
    (heq : f.wire b ++ rest = f.wire b' ++ rest') : b = b' ∧ rest = rest' := by
  have hread := hb.readBlock hw hf rest
  rw [heq, hb'.readBlock hw hf] at hread
  obtain ⟨hblock, hrest⟩ := Prod.mk.inj (Except.ok.inj hread)
  obtain ⟨htag, htype, hvalue, -⟩ := Block.mk.inj hblock
  refine ⟨?_, hrest.symm⟩
  rw [← hb.asRead, ← hb'.asRead]
  cases type <;> simp only [BlockType.read, BlockType.shows, htag, htype, hvalue]

end Records

/-! ### The byte behind the message -/

section Overread
variable {cfg : Config} {type : BlockType} {w : Widths} {f : Format} {bytes : Bytes}

theorem readNumber_ne_overread (w : Width) (bytes : Bytes) : readNumber w bytes ≠ .error .overread := by
  unfold readNumber
  split <;> exact fun h => by cases h

theorem readLen_ne_overread (w : Widths) (n : Nat) (bytes : Bytes) : readLen w n bytes ≠ .error .overread := by
  unfold readLen
  split
  · exact readNumber_ne_overread _ _
  · exact fun h => by cases h

theorem tlv_ne_overread (w : Widths) (bytes : Bytes) : (tlvFormat w).readHeader bytes ≠ .error .overread := by
  intro h
  obtain htag | ⟨_, -, h⟩ := bind_eq_error h
  · exact readNumber_ne_overread _ _ htag
  · obtain hlen | ⟨_, -, h⟩ := bind_eq_error h
    · exact readNumber_ne_overread _ _ hlen
    · cases h

theorem dttv_ne_overread (hne : bytes ≠ []) : (dttvFormat cfg w).readHeader bytes ≠ .error .overread := by
  intro h
  cases bytes with
  | nil => exact hne rfl
  | cons t bytes =>
    simp only [dttvFormat] at h
    split at h
    · cases h
    · obtain htag | ⟨_, -, h⟩ := bind_eq_error h
      · exact readNumber_ne_overread _ _ htag
      · obtain hlen | ⟨_, -, h⟩ := bind_eq_error h
        · exact readLen_ne_overread _ _ _ hlen
        · cases h

theorem ttlv_overread (h : (ttlvFormat cfg w).readHeader bytes = .error .overread) : bytes.length = w.tag.size := by
  obtain htag | ⟨⟨tag, rest⟩, htag, h⟩ := bind_eq_error h
  · exact absurd htag (readNumber_ne_overread _ _)
  · cases rest with
    | nil =>
      rw [(readNumber_eq_ok htag).2, append_nil, Width.length_put]
    | cons t rest =>
      dsimp only at h
      split at h
      · cases h
      · obtain hlen | ⟨_, -, h⟩ := bind_eq_error h
        · exact absurd hlen (readLen_ne_overread _ _ _)
        · cases h

/-- Only the TTLV reader looks behind the message, and only if nothing follows the tag. -/
theorem readBlock_overread (hw : cfg.widths type = some w) (hf : cfg.format type = some f) (hne : bytes ≠ [])
    (h : readBlock cfg f (true, true) bytes = .error .overread) : type = .ttlv ∧ bytes.length = w.tag.size := by
  have hheader : f.readHeader bytes = .error .overread := by
    obtain hheader | ⟨⟨h', rest⟩, -, h⟩ := bind_eq_error h
    · exact hheader
    · dsimp only at h
      split at h
      · cases h
      · obtain hpack | ⟨_, -, h⟩ := bind_eq_error h
        · unfold packBytes at hpack
          split at hpack
          · cases hpack
          · split at hpack <;> cases hpack
        · cases h
  cases type with
  | tlv =>
    rw [Config.format, show cfg.tlv = some w from hw] at hf
    cases hf
    exact absurd hheader (tlv_ne_overread w bytes)
  | dttv =>
    rw [Config.format, show cfg.dttv = some w from hw] at hf
    cases hf
    exact absurd hheader (dttv_ne_overread hne)
  | ttlv =>
    rw [Config.format, show cfg.ttlv = some w from hw] at hf
    cases hf
    exact ⟨rfl, ttlv_overread hheader⟩

theorem ttlv_overread_of_length (hw : cfg.ttlv = some w) (hf : cfg.format .ttlv = some f)
    (hlen : bytes.length = w.tag.size) : readBlock cfg f (true, true) bytes = .error .overread := by
  rw [Config.format, hw] at hf
  cases hf
  have hget : ∃ n, readNumber w.tag bytes = .ok (n, []) := by
    cases hsize : w.tag <;> rw [hsize] at hlen
    · obtain ⟨a, rfl⟩ := length_eq_one_iff.mp hlen
      exact ⟨_, rfl⟩
    · obtain ⟨a, b, rfl⟩ := length_eq_two.mp hlen
      exact ⟨_, rfl⟩
  obtain ⟨n, hn⟩ := hget
  simp only [readBlock, ttlvFormat, hn, bind, Except.bind, Bool.not_true, Bool.false_eq_true, if_false]

end Overread

/-! ### Whole messages -/

section Messages
variable {cfg : Config} {type : BlockType} {w : Widths} {f : Format} {ctx : Context}

theorem Acceptable.nil (cfg : Config) (type : BlockType) (w : Widths) (ctx : Context) : Acceptable cfg type w ctx [] :=
  ⟨fun _ h => (by cases h), fun _ h => (by cases h), nodup_nil⟩

theorem Acceptable.cons {b : Block} {records : Context} (hb : Record cfg type w b) (hfresh : b.tag ∉ ctx.map Block.tag)
    (h : Acceptable cfg type w (ctx ++ [b]) records) : Acceptable cfg type w ctx (b :: records) := by
  have hrest : ∀ c ∈ records, c.tag ∉ ctx.map Block.tag ∧ c.tag ≠ b.tag := by
    intro c hc
    have hnot := h.fresh c hc
    rw [map_append, mem_append, not_or] at hnot
    exact ⟨hnot.1, fun heq => hnot.2 (mem_singleton.mpr heq)⟩
  refine ⟨forall_mem_cons.mpr ⟨hb, h.record⟩, forall_mem_cons.mpr ⟨hfresh, fun c hc => (hrest c hc).1⟩, ?_⟩
  refine nodup_cons.mpr ⟨fun hmem => ?_, h.distinct⟩
  obtain ⟨c, hc, htag⟩ := mem_map.mp hmem
  exact (hrest c hc).2 htag

theorem Acceptable.tail {b : Block} {records : Context} (h : Acceptable cfg type w ctx (b :: records)) :
    Acceptable cfg type w (ctx ++ [b]) records := by
  have hdistinct := nodup_cons.mp h.distinct
  refine ⟨fun c hc => h.record c (mem_cons_of_mem b hc), fun c hc => ?_, hdistinct.2⟩
  rw [map_append, mem_append, not_or]
  refine ⟨h.fresh c (mem_cons_of_mem b hc), fun htag => hdistinct.1 ?_⟩
  exact mem_map.mpr ⟨c, hc, mem_singleton.mp htag⟩

/-- What the loop has done when it returns: the records in front are in the context, and it
is through, or no record follows that could be added. -/
def Outcome (cfg : Config) (type : BlockType) (w : Widths) (f : Format) (ctx : Context) (bytes : Bytes)
    (r : Context × Except Errno Unit) : Prop :=
  ∃ records rest, Acceptable cfg type w ctx records ∧ bytes = f.stream records ++ rest ∧ r.1 = ctx ++ records ∧
    (rest = [] ∧ r.2 = .ok () ∨
      ∃ e, r.2 = .error e ∧ rest ≠ [] ∧ Offends cfg type w f (ctx ++ records) rest ∧
        (e = .overread → type = .ttlv ∧ rest.length = w.tag.size))

theorem Outcome.done (ctx : Context) : Outcome cfg type w f ctx [] (ctx, .ok ()) :=
  ⟨[], [], .nil .., rfl, (append_nil _).symm, .inl ⟨rfl, rfl⟩⟩

theorem Outcome.stop {bytes : Bytes} {e : Errno} (hne : bytes ≠ []) (hoff : Offends cfg type w f ctx bytes)
    (hover : e = .overread → type = .ttlv ∧ bytes.length = w.tag.size) :
    Outcome cfg type w f ctx bytes (ctx, .error e) :=
  ⟨[], bytes, .nil .., rfl, (append_nil _).symm, .inr ⟨e, rfl, hne, by rwa [append_nil], hover⟩⟩

theorem Outcome.cons {b : Block} {bytes : Bytes} {r : Context × Except Errno Unit} (hb : Record cfg type w b)
    (hfresh : b.tag ∉ ctx.map Block.tag) (h : Outcome cfg type w f (ctx ++ [b]) bytes r) :
    Outcome cfg type w f ctx (f.wire b ++ bytes) r := by
  obtain ⟨records, rest, hacc, rfl, hctx, hend⟩ := h
  refine ⟨b :: records, rest, hacc.cons hb hfresh, ?_, by simpa using hctx, by simpa using hend⟩
  exact (append_assoc ..).symm

section
variable (hw : cfg.widths type = some w) (hf : cfg.format type = some f)
include hw hf

/-- **The loop.** By induction on the rounds: each takes one record, or is the last. -/
theorem deserializeLoop_outcome (rounds i : Nat) (bytes : Bytes) (ctx : Context) (hrounds : bytes.length ≤ rounds) :
    Outcome cfg type w f ctx bytes (deserializeLoop cfg f (fun _ => (true, true)) rounds i bytes ctx) := by
  induction rounds generalizing i bytes ctx with
  | zero =>
    cases length_eq_zero_iff.mp (Nat.le_zero.mp hrounds)
    exact .done ctx
  | succ rounds ih =>
    rw [deserializeLoop]
    split
    · next hnil =>
      subst hnil
      exact .done ctx
    · next hne =>
      cases hread : readBlock cfg f (true, true) bytes with
      | error e =>
        refine .stop hne (fun b rest hb _ heq => ?_) fun he => readBlock_overread hw hf hne (he ▸ hread)
        rw [heq, hb.readBlock hw hf] at hread
        cases hread
      | ok r =>
        obtain ⟨b, rest⟩ := r
        obtain ⟨hrecord, rfl⟩ := readBlock_eq_ok hw hf hread
        by_cases htaken : b.tag ∈ ctx.map Block.tag
        · simp only [blockAdd_taken htaken]
          refine .stop hne (fun c rest' hc hfresh heq => hfresh ?_) fun he => by cases he
          have hsame := hrecord.unique hc hw hf heq
          rwa [← hsame.1]
        · simp only [blockAdd_fresh htaken]
          have hlen : rest.length ≤ rounds := by
            have := length_pos_iff.mpr hrecord.value
            dsimp only at this
            simp only [Format.wire, length_append] at hrounds
            omega
          exact .cons hrecord htaken (ih (i + 1) rest _ hlen)

/-- The records in front of what is left are taken, one a round. -/
theorem deserializeLoop_records {records : Context} (hacc : Acceptable cfg type w ctx records) (rest : Bytes)
    (rounds i : Nat) (hrounds : (f.stream records ++ rest).length ≤ rounds) :
    ∃ rounds' i', rest.length ≤ rounds' ∧
      deserializeLoop cfg f (fun _ => (true, true)) rounds i (f.stream records ++ rest) ctx =
        deserializeLoop cfg f (fun _ => (true, true)) rounds' i' rest (ctx ++ records) := by
  induction records generalizing ctx rounds i with
  | nil => exact ⟨rounds, i, hrounds, by rw [append_nil]; rfl⟩
  | cons b records ih =>
    have hb := hacc.record b mem_cons_self
    have hsplit : f.stream (b :: records) ++ rest = f.wire b ++ (f.stream records ++ rest) := append_assoc ..
    have hwire := length_pos_iff.mpr (f.wire_ne_nil hb.value [])
    rw [append_nil] at hwire
    rw [hsplit, length_append] at hrounds
    obtain ⟨rounds, rfl⟩ : ∃ r, rounds = r + 1 := Nat.exists_eq_succ_of_ne_zero (by omega)
    have hupdate : { b with update := true } = b := by rw [← hb.asRead]; rfl
    rw [hsplit, deserializeLoop, if_neg (f.wire_ne_nil hb.value _), hb.readBlock hw hf]
    simp only [blockAdd_fresh (b := { b with update := false }) (hacc.fresh b mem_cons_self), hupdate]
    obtain ⟨rounds', i', hle, hloop⟩ := ih hacc.tail rounds (i + 1) (by omega)
    exact ⟨rounds', i', hle, by rw [hloop, append_assoc]; rfl⟩

/-- Records have one reading: those in front of a whole message of records are its first ones. -/
theorem stream_unique {records records' : Context} {rest : Bytes} (h : ∀ b ∈ records, Record cfg type w b)
    (h' : ∀ b ∈ records', Record cfg type w b) (heq : f.stream records ++ rest = f.stream records') :
    ∃ more, records' = records ++ more ∧ rest = f.stream more := by
  induction records generalizing records' with
  | nil => exact ⟨records', rfl, heq⟩
  | cons b records ih =>
    have hb := h b mem_cons_self
    have hsplit : f.stream (b :: records) ++ rest = f.wire b ++ (f.stream records ++ rest) := append_assoc ..
    cases records' with
    | nil => exact absurd (hsplit.symm.trans heq) (f.wire_ne_nil hb.value _)
    | cons b' records' =>
      obtain ⟨rfl, hrest⟩ := hb.unique (h' b' mem_cons_self) hw hf (hsplit.symm.trans heq)
      obtain ⟨more, rfl, hmore⟩ := ih (fun c hc => h c (mem_cons_of_mem _ hc))
        (fun c hc => h' c (mem_cons_of_mem _ hc)) hrest
      exact ⟨more, rfl, hmore⟩
end

end Messages

/-- The message is the records, one behind the other, and there are some. -/
structure WellFormed (cfg : Config) (type : BlockType) (w : Widths) (f : Format) (ctx : Context) (msg : Bytes)
    (records : Context) : Prop extends Acceptable cfg type w ctx records where
  nonempty : records ≠ []
  stream : msg = f.stream records

/-- What a reader of exactly the well-formed messages returns: it succeeds on these, and the
context has their records more; else it has those in front of the one that offends; and it
stays inside the message. -/
structure ReadsExactly (cfg : Config) (type : BlockType) (w : Widths) (f : Format) (ctx : Context) (msg : Bytes)
    (r : Context × Except Errno Unit) : Prop where
  accepts : r.2 = .ok () ↔ ∃ records, WellFormed cfg type w f ctx msg records
  success : ∀ records, WellFormed cfg type w f ctx msg records → r.1 = ctx ++ records
  failure : r.2 ≠ .ok () → ∃ records rest, Acceptable cfg type w ctx records ∧ msg = f.stream records ++ rest ∧
    Offends cfg type w f (ctx ++ records) rest ∧ r.1 = ctx ++ records
  inside : r.2 ≠ .error .overread

section Messages
variable {cfg : Config} {type : BlockType} {w : Widths} {f : Format} {ctx records : Context} {msg : Bytes}

theorem WellFormed.msg_ne_nil (h : WellFormed cfg type w f ctx msg records) : msg ≠ [] := by
  obtain ⟨b, more, rfl⟩ := exists_cons_of_ne_nil h.nonempty
  rw [h.stream]
  exact f.wire_ne_nil (h.record b mem_cons_self).value _

section
variable (hw : cfg.widths type = some w) (hf : cfg.format type = some f)
include hw hf

/-- Where a reader stops with something left, the message is not well formed. -/
theorem Offends.not_wellFormed {rest : Bytes} (hne : rest ≠ []) (hoff : Offends cfg type w f (ctx ++ records) rest)
    (hacc : Acceptable cfg type w ctx records) (records' : Context) :
    ¬ WellFormed cfg type w f ctx (f.stream records ++ rest) records' := by
  intro h
  obtain ⟨more, rfl, rfl⟩ := stream_unique hw hf hacc.record h.record h.stream
  cases more with
  | nil => exact hne rfl
  | cons b more =>
    have hmem : b ∈ records ++ b :: more := mem_append_right _ mem_cons_self
    refine hoff b (f.stream more) (h.record b hmem) ?_ rfl
    rw [map_append, mem_append, not_or]
    refine ⟨h.fresh b hmem, fun hearlier => ?_⟩
    have hdistinct := h.distinct
    rw [map_append, map_cons] at hdistinct
    exact (nodup_append.mp hdistinct).2.2 b.tag hearlier b.tag mem_cons_self rfl

theorem Outcome.readsExactly (hne : msg ≠ []) (hcut : type = .ttlv → ¬ EndsBehindTag cfg type w f ctx msg)
    {r : Context × Except Errno Unit} (h : Outcome cfg type w f ctx msg r) : ReadsExactly cfg type w f ctx msg r := by
  obtain ⟨records, rest, hacc, hmsg, hctx, ⟨rfl, hok⟩ | ⟨e, herr, hleft, hoff, hover⟩⟩ := h
  · rw [append_nil] at hmsg
    have hwell : WellFormed cfg type w f ctx msg records := by
      refine ⟨hacc, fun hnil => hne ?_, hmsg⟩
      rw [hmsg, hnil]
      rfl
    refine ⟨⟨fun _ => ⟨records, hwell⟩, fun _ => hok⟩, fun records' h' => ?_, fun hnot => absurd hok hnot, ?_⟩
    · have heq : f.stream records ++ [] = f.stream records' := by rw [append_nil, ← hmsg, h'.stream]
      obtain ⟨more, rfl, hmore⟩ := stream_unique hw hf hacc.record h'.record heq
      cases more with
      | nil => rw [hctx, append_nil]
      | cons b more =>
        have hb := h'.record b (mem_append_right _ mem_cons_self)
        exact absurd hmore.symm (f.wire_ne_nil hb.value _)
    · rw [hok]
      exact fun h => by cases h
  · have hnone := hmsg ▸ hoff.not_wellFormed hw hf hleft hacc
    refine ⟨⟨fun hok => ?_, fun ⟨records', h'⟩ => absurd h' (hnone records')⟩,
      fun records' h' => absurd h' (hnone records'), fun _ => ⟨records, rest, hacc, hmsg, hoff, hctx⟩, ?_⟩
    · rw [herr] at hok
      cases hok
    · rw [herr]
      intro he
      obtain ⟨htype, hlast⟩ := hover (Except.error.inj he)
      exact hcut htype ⟨records, rest, hacc, hmsg, hlast⟩
end

end Messages

/-- A TTLV message that ends behind a tag is read too far. -/
theorem EndsBehindTag.overread {cfg : Config} {w : Widths} {f : Format} {ctx : Context} {msg : Bytes}
    (hw : cfg.ttlv = some w) (hf : cfg.format .ttlv = some f) (h : EndsBehindTag cfg .ttlv w f ctx msg) :
    (deserialize cfg (fun _ => (true, true)) ctx msg .ttlv).2 = .error .overread := by
  obtain ⟨records, last, hacc, rfl, hlast⟩ := h
  have hsize : 0 < w.tag.size := by cases w.tag <;> decide
  obtain ⟨rounds, i, hle, hloop⟩ := deserializeLoop_records (show cfg.widths .ttlv = some w from hw) hf
    hacc last _ 0 (Nat.le_refl _)
  obtain ⟨rounds, rfl⟩ : ∃ r, rounds = r + 1 := Nat.exists_eq_succ_of_ne_zero (by omega)
  have hne : last ≠ [] := length_pos_iff.mp (by omega)
  have hmsg : ¬ (f.stream records ++ last).length = 0 := by rw [length_append]; omega
  rw [deserialize, hf]
  simp only [deserializeWith, if_neg hmsg]
  rw [hloop, deserializeLoop, if_neg hne, ttlv_overread_of_length hw hf hlast]

/-- **The readers accept exactly the well-formed messages**, in each format of every build and
for every context, exactly where a TTLV message does not end right behind a tag. -/
theorem deserialize_readsExactly (cfg : Config) (type : BlockType) (w : Widths) (f : Format) (ctx : Context)
    (msg : Bytes) (hw : cfg.widths type = some w) (hf : cfg.format type = some f) :
    ReadsExactly cfg type w f ctx msg (deserialize cfg (fun _ => (true, true)) ctx msg type) ↔
      (type = .ttlv → ¬ EndsBehindTag cfg type w f ctx msg) := by
  refine ⟨fun h htype hcut => ?_, fun hcut => ?_⟩
  · subst htype
    exact h.inside (hcut.overread hw hf)
  rw [deserialize, hf]
  simp only [deserializeWith]
  split
  · next hlen =>
    cases length_eq_zero_iff.mp hlen
    -- an empty message is an error, with no record in front of it
    refine ⟨⟨fun h => (by cases h), fun h => h.elim fun _ h => absurd rfl h.msg_ne_nil⟩,
      fun _ h => absurd rfl h.msg_ne_nil, fun _ => ?_, fun h => by cases h⟩
    refine ⟨[], [], .nil .., rfl, fun b rest hb _ heq => ?_, (append_nil _).symm⟩
    exact f.wire_ne_nil hb.value rest heq.symm
  · next hlen =>
    have hne : msg ≠ [] := fun h => hlen (length_eq_zero_iff.mpr h)
    exact (deserializeLoop_outcome hw hf msg.length 0 msg ctx (Nat.le_refl _)).readsExactly hw hf hne hcut

/-- A number of one byte, in TTLV. -/
theorem deserialize_readsExactly_number :
    deserialize mixedWidths (fun _ => (true, true)) [] [7, 2, 1] .ttlv = ([⟨7, 2, [1], true, false⟩], .ok ()) ∧
    ReadsExactly mixedWidths .ttlv ⟨.one, .one⟩ (ttlvFormat mixedWidths ⟨.one, .one⟩) [] [7, 2, 1]
      (deserialize mixedWidths (fun _ => (true, true)) [] [7, 2, 1] .ttlv) := by
  refine ⟨by decide, (deserialize_readsExactly mixedWidths .ttlv ⟨.one, .one⟩ _ [] [7, 2, 1] rfl rfl).mpr ?_⟩
  rintro - ⟨records, last, hacc, hmsg, hlast⟩
  have hlen := congrArg List.length hmsg
  rw [length_append, hlast] at hlen
  cases records with
  | nil => cases hlen
  | cons b more =>
    have hvalue := length_pos_iff.mpr (hacc.record b mem_cons_self).value
    simp only [Format.stream, flatMap_cons, Format.wire, ttlvFormat, length_append, length_cons,
      Width.length_put, Width.size, length_nil] at hlen
    omega

/-- A TTLV message of one tag and nothing behind it: the type is read behind its end. -/
theorem ttlv_reads_behind :
    ∃ (cfg : Config) (type : BlockType) (w : Widths) (f : Format) (ctx : Context) (msg : Bytes),
      cfg.widths type = some w ∧ cfg.format type = some f ∧
      ¬ ReadsExactly cfg type w f ctx msg (deserialize cfg (fun _ => (true, true)) ctx msg type) := by
  refine ⟨mixedWidths, .ttlv, ⟨.one, .one⟩, _, [], [7], rfl, rfl, fun h => h.inside ?_⟩
  decide

end Qumios.Tlv
