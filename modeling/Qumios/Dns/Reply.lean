import Qumios.Dns.Server

/-! A reply repeats the question and answers it, where there is one.

`Query` and `Reply` say what messages are, and `wire` how they lie in a buffer: counts and
lists agree by construction. The server's reply is the wire form of the reply it owes if the
query has one question, and the name in it has a label and no zero. -/
namespace Qumios.Dns
open Wire List

/-! ### Messages -/

/-- A label of 1 to 63 bytes without dots. -/
structure Label where
  bytes : Bytes
  pos : 0 < bytes.length
  le : bytes.length ≤ 63
  plain : dot ∉ bytes

abbrev Name := List Label

namespace Name

def wire (name : Name) : Bytes := name.flatMap (fun l => UInt8.ofNat l.bytes.length :: l.bytes) ++ [0]

def dotted (name : Name) : Bytes := name.flatMap fun l => dot :: l.bytes

def text (name : Name) : Bytes := (dotted name).tail

end Name

structure Ask where
  name : Name
  qType : UInt16
  qClass : UInt16

def Ask.wire (a : Ask) : Bytes := a.name.wire ++ Width.two.put a.qType.toNat ++ Width.two.put a.qClass.toNat

/-- A query: questions, and behind them whatever else it says. -/
structure Query where
  id : UInt16
  flags : UInt16
  arCount : UInt16
  questions : List Ask
  few : questions.length < 65536
  additional : Bytes

def Query.wire (q : Query) : Bytes :=
  Width.two.put q.id.toNat ++ Width.two.put q.flags.toNat ++ Width.two.put q.questions.length ++ Width.two.put 0 ++
    Width.two.put 0 ++ Width.two.put q.arCount.toNat ++ q.questions.flatMap Ask.wire ++ q.additional

/-- An address record for the name that was asked for. -/
structure Answer where
  ask : Ask
  addr : Bytes

def Answer.wire (a : Answer) : Bytes :=
  a.ask.name.wire ++ Width.two.put 1 ++ Width.two.put a.ask.qClass.toNat ++ put32 3600 ++ Width.two.put 4 ++ a.addr

structure Reply where
  id : UInt16
  rcode : Nat
  questions : List Ask
  answers : List Answer

def Reply.wire (r : Reply) : Bytes :=
  Width.two.put r.id.toNat ++ Width.two.put (2 ^ 15 + r.rcode) ++ Width.two.put r.questions.length ++
    Width.two.put r.answers.length ++ Width.two.put 0 ++ Width.two.put 0 ++ r.questions.flatMap Ask.wire ++
    r.answers.flatMap Answer.wire

def Ask.answered (cfg : Config) (a : Ask) : Bool := a.qType = 1 && a.name.text = cfg.domain

def Query.reply (cfg : Config) (q : Query) : Reply where
  id := q.id
  rcode := if q.questions.all fun a => a.qType = 1 || a.qType = 28 then 0 else 4
  questions := q.questions
  answers := (q.questions.filter (·.answered cfg)).map (⟨·, cfg.addr⟩)

/-- A response that has the query's id, its questions, and the answers that are owed, in any order,
each list behind its count. -/
def Query.Met (cfg : Config) (q : Query) (response : Bytes) : Prop :=
  ∃ r : Reply, r.id = q.id ∧ r.questions.Perm q.questions ∧ r.answers.Perm (q.reply cfg).answers ∧ r.wire = response

/-- A query that fits the buffer, with names that are not too long, and a reply that fits. -/
structure Query.Fits (cfg : Config) (q : Query) : Prop where
  asked : 0 < q.questions.length
  query : q.wire.length ≤ cfg.bufSize
  names : ∀ a ∈ q.questions, a.name.text.length ≤ cfg.maxLen
  reply : (q.reply cfg).wire.length ≤ cfg.bufSize

/-! ### Names -/

@[simp] theorem Name.wire_nil : Name.wire [] = [0] := rfl

variable (l : Label)

@[simp] theorem Name.wire_cons (name : Name) :
    Name.wire (l :: name) = UInt8.ofNat l.bytes.length :: (l.bytes ++ name.wire) := by
  simp [Name.wire]

@[simp] theorem Name.dotted_cons (name : Name) : Name.dotted (l :: name) = dot :: (l.bytes ++ name.dotted) := by
  simp [Name.dotted]

theorem Label.toNat_length : (UInt8.ofNat l.bytes.length).toNat = l.bytes.length := by
  have := l.le
  rw [UInt8.toNat_ofNat']
  omega

theorem Label.length_ne_zero : UInt8.ofNat l.bytes.length ≠ 0 := by
  intro h
  have hnat := congrArg UInt8.toNat h
  rw [l.toNat_length, UInt8.toNat_zero] at hnat
  have := l.pos
  omega

/-- A name is decoded label by label, up to its end. -/
theorem decodeLabels_wire (name : Name) (rest : Bytes) (fuel : Nat) (hfuel : name.length < fuel) (first : Bool) :
    decodeLabels fuel (name.wire ++ rest) first = some (if first then name.text else name.dotted, rest) := by
  induction name generalizing fuel first with
  | nil =>
    cases fuel with
    | zero => cases hfuel
    | succ fuel => cases first <;> rfl
  | cons l name ih =>
    cases fuel with
    | zero => cases hfuel
    | succ fuel =>
      have hrest := ih fuel (by simpa using hfuel) false
      rw [Name.wire_cons, cons_append, decodeLabels, if_neg l.length_ne_zero, l.toNat_length, append_assoc,
        if_pos (by simp), drop_left, take_left, hrest]
      cases first <;> simp [Name.text]

theorem length_lt_wire (name : Name) : name.length < name.wire.length := by
  induction name with
  | nil => decide
  | cons l name ih =>
    simp only [Name.wire_cons, length_cons, length_append]
    omega

def Name.Solid (name : Name) : Prop := ∀ l ∈ name, 0 ∉ l.bytes

variable {name : Name} {cfg : Config} {a : Ask} {response : Bytes}

theorem Name.Solid.notMem (h : name.Solid) : 0 ∉ name.dotted := by
  intro hmem
  obtain ⟨l, hl, hzero⟩ := mem_flatMap.mp hmem
  rcases mem_cons.mp hzero with hdot | hzero
  · cases hdot
  · exact h l hl hzero

theorem Name.Solid.takeWhile (h : name.Solid) : name.text.takeWhile (· ≠ 0) = name.text := by
  rw [takeWhile_eq_self_iff]
  intro c hc
  rw [decide_eq_true_eq]
  rintro rfl
  exact h.notMem (mem_of_mem_tail hc)

theorem Name.solid_of_text (h : 0 ∉ name.text) : name.Solid := by
  cases name with
  | nil => exact fun _ hl => (not_mem_nil hl).elim
  | cons l name =>
    rw [Name.text, Name.dotted_cons, tail_cons, mem_append, not_or] at h
    intro m hm hzero
    rcases mem_cons.mp hm with rfl | hm
    · exact h.1 hzero
    · exact h.2 (mem_flatMap.mpr ⟨m, hm, mem_cons_of_mem _ hzero⟩)

theorem decodeDomainName_wire (cfg : Config) (hlen : name.text.length ≤ cfg.maxLen) (rest : Bytes) :
    decodeDomainName cfg (name.wire ++ rest) = some (name.text.takeWhile (· ≠ 0), rest) := by
  have hfuel : name.length < (name.wire ++ rest).length + 1 := by
    have := length_lt_wire name
    rw [length_append]
    omega
  rw [decodeDomainName, decodeLabels_wire name rest _ hfuel true]
  simp only [if_true, hlen]

theorem encodeLabels_append (label : Bytes) {s : Bytes} (h : dot ∉ s) (rest : Bytes) :
    encodeLabels label (s ++ rest) = encodeLabels (label ++ s) rest := by
  induction s generalizing label with
  | nil => simp
  | cons c s ih =>
    have hc : c ≠ dot := fun hc => h (hc ▸ mem_cons_self)
    rw [cons_append, encodeLabels, if_neg hc, ih _ fun hs => h (mem_cons_of_mem _ hs), append_assoc]
    rfl

theorem encodeLabels_dotted (name : Name) : encodeLabels [] (l.bytes ++ name.dotted) = Name.wire (l :: name) := by
  induction name generalizing l with
  | nil =>
    rw [encodeLabels_append [] l.plain]
    simp [encodeLabels, Name.dotted]
  | cons l' name ih =>
    rw [encodeLabels_append [] l.plain, Name.dotted_cons, encodeLabels, if_pos rfl, ih l', nil_append,
      Name.wire_cons l]
    rfl

theorem encodeDomainName_text (h : name ≠ []) : encodeDomainName name.text = name.wire := by
  cases name with
  | nil => exact absurd rfl h
  | cons l name =>
    exact encodeLabels_dotted l name

theorem length_encodeDomainName (s : Bytes) : (encodeDomainName s).length = s.length + 2 := by
  have hloop (label : Bytes) : (encodeLabels label s).length = label.length + s.length + 2 := by
    induction s generalizing label with
    | nil => simp [encodeLabels]
    | cons c s ih =>
      rw [encodeLabels]
      split
      · simp only [cons_append, length_cons, length_append, ih, length_nil]
        omega
      · rw [ih, length_append, length_singleton, length_cons]
        omega
  rw [encodeDomainName, hloop, length_nil, Nat.zero_add]

theorem Name.length_wire (h : name ≠ []) : name.wire.length = name.text.length + 2 := by
  rw [← encodeDomainName_text h, length_encodeDomainName]

/-! ### Questions -/

/-- The question as the server reads it: its name ends at a zero. -/
def Ask.question (a : Ask) : Question := ⟨a.name.text.takeWhile (· ≠ 0), a.qType.toNat, a.qClass.toNat⟩

theorem decodeQuestion_wire (h : a.name.text.length ≤ cfg.maxLen) (rest : Bytes) :
    decodeQuestion cfg (a.wire ++ rest) = some (a.question, rest) := by
  rw [Ask.wire, append_assoc, append_assoc, decodeQuestion, decodeDomainName_wire cfg h]
  simp only [Width.get_put (w := .two) a.qType.toNat_lt, Width.get_put (w := .two) a.qClass.toNat_lt]
  rfl

/-- **Of all questions the last one is left.** -/
theorem decodeQuestions_wire (asks : List Ask) (h : ∀ a ∈ asks, a.name.text.length ≤ cfg.maxLen) (qs before : List Question)
    (rest : Bytes) :
    decodeQuestions cfg qs asks.length (asks.flatMap Ask.wire ++ rest) before =
      some ((asks.getLast?.map fun a => a.question :: qs).getD before) := by
  induction asks generalizing before with
  | nil => rfl
  | cons a asks ih =>
    rw [flatMap_cons, append_assoc, length_cons, decodeQuestions,
      decodeQuestion_wire (h a mem_cons_self)]
    simp only [ih fun b hb => h b (mem_cons_of_mem _ hb)]
    cases asks with
    | nil => rfl
    | cons b asks =>
      obtain ⟨z, hz⟩ : ∃ z, (b :: asks).getLast? = some z := ⟨_, getLast?_eq_some_getLast (by simp)⟩
      rfl

theorem decodeHeader_put {a b c d e f : Nat} (ha : a < 65536) (hb : b < 65536) (hc : c < 65536) (hd : d < 65536)
    (he : e < 65536) (hf : f < 65536) (rest : Bytes) :
    decodeHeader 6 (Width.two.put a ++ Width.two.put b ++ Width.two.put c ++ Width.two.put d ++ Width.two.put e ++
      Width.two.put f ++ rest) = some ([a, b, c, d, e, f], rest) := by
  have hget : ∀ {n : Nat}, n < 65536 → ∀ rest, Width.two.get (Width.two.put n ++ rest) = some (n, rest) :=
    fun hn rest => Width.get_put (w := .two) hn rest
  simp only [append_assoc, decodeHeader, hget ha, hget hb, hget hc, hget hd, hget he, hget hf, Option.map_some]

theorem decodeMsg_wire (q : Query) (h : ∀ a ∈ q.questions, a.name.text.length ≤ cfg.maxLen) (stale : Bytes) :
    decodeMsg cfg (q.wire ++ stale) =
      .ok ⟨q.id.toNat, q.flags.toNat / 2 ^ 15, q.flags.toNat % 16, q.questions.length, 0, 0, q.arCount.toNat,
        (q.questions.getLast?.map fun a => [a.question]).getD [], []⟩ := by
  have hheader := decodeHeader_put q.id.toNat_lt q.flags.toNat_lt q.few (Nat.zero_lt_succ _) (Nat.zero_lt_succ _)
    q.arCount.toNat_lt (q.questions.flatMap Ask.wire ++ (q.additional ++ stale))
  have hquestions := decodeQuestions_wire q.questions h [] [] (q.additional ++ stale)
  rw [Query.wire, append_assoc, append_assoc, decodeMsg, hheader]
  simp only [ne_eq, not_true_eq_false, or_self, if_false, hquestions]

/-! ### The reply -/

def Ask.record (cfg : Config) (a : Ask) : ResourceRecord := ⟨a.question.qName, 1, a.qClass.toNat, 3600, 4, cfg.addr⟩

/-- Whether the server answers the question. -/
def Ask.found (cfg : Config) (a : Ask) : Bool := a.qType = 1 && a.question.qName = cfg.domain

theorem resolve_single (cfg : Config) (a : Ask) {msg : Message} (hanswers : msg.answers = []) (hcount : msg.anCount = 0)
    (hrcode : msg.rcode = 0) :
    resolveLoop cfg [a.question] msg =
      { msg with
        rcode := if a.qType = 1 ∨ a.qType = 28 then 0 else 4
        anCount := if a.found cfg then 1 else 0
        answers := if a.found cfg then [a.record cfg] else [] } := by
  obtain ⟨id, qr, rcode, qdCount, anCount, nsCount, arCount, questions, answers⟩ := msg
  obtain rfl : answers = [] := hanswers
  obtain rfl : anCount = 0 := hcount
  obtain rfl : rcode = 0 := hrcode
  have hone : a.question.qType = 1 ↔ a.qType = 1 := UInt16.toNat_inj (b := 1)
  have hsix : a.question.qType = 28 ↔ a.qType = 28 := UInt16.toNat_inj (b := 28)
  rw [resolveLoop]
  by_cases h1 : a.qType = 1
  · rw [if_pos (hone.mpr h1), getARecord]
    by_cases hname : cfg.domain = a.question.qName
    · have hanswered : a.found cfg = true := by simp [Ask.found, h1, hname]
      simp only [if_pos hname, resolveLoop, h1, true_or, if_true, hanswered, hone.mpr h1]
      rfl
    · have hanswered : a.found cfg = false := by simp [Ask.found, Ne.symm hname]
      simp only [if_neg hname, resolveLoop, h1, true_or, if_true, hanswered, Bool.false_eq_true, if_false]
  · have hanswered : a.found cfg = false := by simp [Ask.found, h1]
    rw [if_neg (hone.not.mpr h1)]
    by_cases h28 : a.qType = 28
    · simp only [if_pos (hsix.mpr h28), resolveLoop, h28, or_true, if_true, hanswered, Bool.false_eq_true, if_false]
    · simp only [if_neg (hsix.not.mpr h28), resolveLoop, h1, h28, or_self, hanswered, Bool.false_eq_true, if_false]

theorem encodeResourceRecords_single (cfg : Config) (a : Ask) :
    encodeResourceRecords (if a.found cfg then [a.record cfg] else []) =
      some (if a.found cfg then encodeRecord (a.record cfg) else []) := by
  cases a.found cfg with
  | false => rfl
  | true => simp only [if_true, encodeResourceRecords, Ask.record, true_or, Option.map_some, append_nil]

/-- What the server sends: the last question, and an answer to it if it finds one. -/
def Query.sent (cfg : Config) (q : Query) (a : Ask) : Bytes :=
  Width.two.put q.id.toNat ++ Width.two.put (2 ^ 15 + if a.qType = 1 ∨ a.qType = 28 then 0 else 4) ++
    Width.two.put q.questions.length ++ Width.two.put (if a.found cfg then 1 else 0) ++ Width.two.put 0 ++
    Width.two.put 0 ++ encodeQuestion a.question ++ (if a.found cfg then encodeRecord (a.record cfg) else [])

theorem serve_wire {q : Query} (stale : Bytes) (hnames : ∀ a ∈ q.questions, a.name.text.length ≤ cfg.maxLen)
    (hlast : q.questions.getLast? = some a) : serve cfg (q.wire ++ stale) =
      if (q.sent cfg a).length ≤ cfg.bufSize then .ok (q.sent cfg a) else .fault := by
  have hrcode : (if a.qType = 1 ∨ a.qType = 28 then 0 else 4) % 16 = if a.qType = 1 ∨ a.qType = 28 then 0 else 4 := by
    split <;> rfl
  rw [serve, decodeMsg_wire q hnames]
  simp only [hlast, Option.map_some, Option.getD_some]
  rw [resolverProcess, resolve_single cfg a rfl rfl rfl]
  simp only [encodeMsg, encodeResourceRecords_single, encodeHeader, hrcode, Nat.one_mul, flatMap_cons, flatMap_nil,
    append_nil, Query.sent]
  rfl

theorem reply_wire_single (cfg : Config) {q : Query} (ha : q.questions = [a]) (hname : a.name ≠ [])
    (hsolid : a.name.Solid) : (q.reply cfg).wire = q.sent cfg a := by
  have hq : a.question.qName = a.name.text := hsolid.takeWhile
  have hfound : a.found cfg = a.answered cfg := by rw [Ask.found, hq, Ask.answered]
  have hquestion : encodeQuestion a.question = a.wire := by
    show encodeDomainName a.question.qName ++ _ ++ _ = _
    rw [hq, encodeDomainName_text hname]
    rfl
  have hrecord : encodeRecord (a.record cfg) = Answer.wire ⟨a, cfg.addr⟩ := by
    show encodeDomainName a.question.qName ++ _ ++ _ ++ _ ++ _ ++ _ = _
    rw [hq, encodeDomainName_text hname]
    rfl
  rw [Query.sent, hfound, hquestion, hrecord]
  cases hanswered : a.answered cfg <;> simp [Reply.wire, Query.reply, ha, hanswered]

theorem put_inj {m n : Nat} (hm : m < 65536) (hn : n < 65536) (h : Width.two.put m = Width.two.put n) : m = n := by
  have hget := Width.get_put (w := .two) hm []
  rw [h, Width.get_put (w := .two) hn] at hget
  exact (Prod.mk.inj (Option.some.inj hget)).1.symm

/-- What is sent has the lengths and the number of answers of a reply only if it is one. -/
theorem Query.Met.sent {q : Query} {pre : List Ask} (hsplit : q.questions = pre ++ [a]) (h : q.Met cfg (q.sent cfg a)) :
    pre = [] ∧ a.name ≠ [] ∧ a.name.Solid := by
  obtain ⟨r, -, hquestions, hanswers, hwire⟩ := h
  have hfew : r.answers.length < 65536 := by
    rw [hanswers.length_eq, Query.reply, length_map]
    exact Nat.lt_of_le_of_lt (length_filter_le _ _) q.few
  simp only [Reply.wire, Query.sent, append_assoc] at hwire
  obtain ⟨-, hwire⟩ := append_inj hwire (by simp)
  obtain ⟨-, hwire⟩ := append_inj hwire (by simp)
  obtain ⟨-, hwire⟩ := append_inj hwire (by simp)
  obtain ⟨hcount, hwire⟩ := append_inj hwire (by simp)
  obtain ⟨-, hwire⟩ := append_inj hwire (by simp)
  obtain ⟨-, hwire⟩ := append_inj hwire (by simp)
  have hcount : r.answers.length = if a.found cfg then 1 else 0 := put_inj hfew (by split <;> decide) hcount
  have hlength := congrArg length hwire
  have hpre : 5 * pre.length ≤ (pre.flatMap Ask.wire).length := by
    rw [length_flatMap]
    have hfive (b : Ask) : 5 ≤ b.wire.length := by
      have := length_lt_wire b.name
      simp only [Ask.wire, length_append, Width.length_put, Width.size]
      omega
    have hsum : (pre.map fun _ => 5).sum ≤ (pre.map fun b => b.wire.length).sum := sum_le_sum fun b _ => hfive b
    rw [map_const', sum_replicate] at hsum
    simpa [Nat.mul_comm] using hsum
  have hshort : a.question.qName.length ≤ a.name.text.length := (takeWhile_sublist _).length_le
  rw [length_append, length_append, (hquestions.flatMap_right Ask.wire).length_eq, hsplit, flatMap_append, length_append,
    flatMap_singleton] at hlength
  simp only [encodeQuestion, Ask.wire, length_append, Width.length_put, Width.size, length_encodeDomainName] at hlength
  -- the name in the answer is as long as the one that was asked for, unless that has no label
  have hanswer : ∃ more, (r.answers.flatMap Answer.wire).length + more =
      (if a.found cfg then encodeRecord (a.record cfg) else []).length ∧
      (more = 0 ∨ more = 1 ∧ ∃ b ∈ q.questions, b.name = [] ∧ a.question.qName = []) := by
    cases hfound : a.found cfg with
    | false =>
      rw [hfound] at hcount
      rw [length_eq_zero_iff.mp hcount]
      exact ⟨0, rfl, .inl rfl⟩
    | true =>
      rw [hfound] at hcount
      obtain ⟨x, hx⟩ := length_eq_one_iff.mp hcount
      have hmem : x ∈ (q.reply cfg).answers := hanswers.subset (hx ▸ mem_singleton.mpr rfl)
      obtain ⟨b, hb, rfl⟩ := mem_map.mp hmem
      have hdomain : a.question.qName = cfg.domain := (by simpa [Ask.found] using hfound : _ ∧ _).2
      have htext : b.name.text = cfg.domain := (by simpa [Ask.answered] using (mem_filter.mp hb).2 : _ ∧ _).2
      rw [hx, flatMap_singleton]
      by_cases hnil : b.name = []
      · refine ⟨1, ?_, .inr ⟨rfl, b, (mem_filter.mp hb).1, hnil, ?_⟩⟩
        · simp only [Answer.wire, encodeRecord, Ask.record, length_append, Width.length_put, length_encodeDomainName,
            hdomain, ← htext, hnil, if_true]
          simp [Name.text, Name.dotted]
          omega
        · rw [hdomain, ← htext, hnil]
          rfl
      · refine ⟨0, ?_, .inl rfl⟩
        simp only [Answer.wire, encodeRecord, Ask.record, length_append, Width.length_put, length_encodeDomainName,
          Name.length_wire hnil, hdomain, htext, if_true, Nat.add_zero]
  obtain ⟨more, hmore, hcase⟩ := hanswer
  have hle : more ≤ 1 := by
    rcases hcase with rfl | ⟨rfl, -⟩ <;> decide
  have hname : a.name = [] → a.name.wire.length = 1 ∧ a.name.text.length = 0 := fun h => by
    rw [h]
    exact ⟨rfl, rfl⟩
  have hwhole : a.name ≠ [] → a.name.wire.length = a.name.text.length + 2 := Name.length_wire
  have hnopre : pre = [] := by
    rw [← length_eq_zero_iff]
    by_cases h : a.name = []
    · have := hname h
      omega
    · have := hwhole h
      omega
  subst hnopre
  have hne : a.name ≠ [] := by
    intro h
    have := hname h
    simp only [flatMap_nil, length_nil] at hlength
    omega
  have hmore : more = 0 := by
    rcases hcase with h | ⟨-, b, hb, hnil, -⟩
    · exact h
    · rw [hsplit, nil_append, mem_singleton] at hb
      exact absurd (hb ▸ hnil) hne
  refine ⟨rfl, hne, Name.solid_of_text fun hzero => ?_⟩
  have := hwhole hne
  simp only [flatMap_nil, length_nil] at hlength
  have hall : a.question.qName = a.name.text := (takeWhile_sublist _).eq_of_length (by
    show a.question.qName.length = _
    omega)
  have hmem : (0 : UInt8) ∈ a.question.qName := by
    rw [hall]
    exact hzero
  simpa using mem_takeWhile_imp hmem

/-- **The server sends a reply that is consistent with the query** exactly if there is one question, and the name in
it has a label and no zero. It then sends the reply that is owed: the id of the query, its question behind the count
of one, and an answer and a count of one if the question is of type A and for the registered domain. -/
theorem reply_consistent (cfg : Config) (q : Query) (stale : Bytes) (hfits : q.Fits cfg) :
    ((∃ response, serve cfg (q.wire ++ stale) = .ok response ∧ q.Met cfg response) ↔
      q.questions.length = 1 ∧ ∀ a ∈ q.questions, a.name ≠ [] ∧ a.name.Solid) ∧
    ((q.questions.length = 1 ∧ ∀ a ∈ q.questions, a.name ≠ [] ∧ a.name.Solid) →
      serve cfg (q.wire ++ stale) = .ok (q.reply cfg).wire) := by
  have howed (hone : q.questions.length = 1) (hnames : ∀ a ∈ q.questions, a.name ≠ [] ∧ a.name.Solid) :
      serve cfg (q.wire ++ stale) = .ok (q.reply cfg).wire := by
    obtain ⟨a, ha⟩ := length_eq_one_iff.mp hone
    obtain ⟨hname, hsolid⟩ := hnames a (ha ▸ mem_singleton.mpr rfl)
    have hreply := reply_wire_single cfg ha hname hsolid
    rw [serve_wire (a := a) stale hfits.names (by rw [ha]; rfl), ← hreply, if_pos hfits.reply]
  refine ⟨⟨fun ⟨response, hserve, hmet⟩ => ?_, fun ⟨hone, hnames⟩ => ?_⟩, fun h => howed h.1 h.2⟩
  · obtain ⟨pre, a, hsplit⟩ := (eq_nil_or_concat q.questions).resolve_left (length_pos_iff.mp hfits.asked)
    rw [concat_eq_append] at hsplit
    rw [serve_wire (a := a) stale hfits.names (by rw [hsplit]; simp)] at hserve
    split at hserve
    · cases hserve
      obtain ⟨rfl, hname, hsolid⟩ := hmet.sent hsplit
      rw [hsplit]
      exact ⟨rfl, fun b hb => by cases mem_singleton.mp hb; exact ⟨hname, hsolid⟩⟩
    · cases hserve
  · exact ⟨_, howed hone hnames, q.reply cfg, rfl, .refl _, .refl _, rfl⟩

/-- A server with the sizes of the default configuration, and `ab.c` registered. -/
def accessPoint : Config where
  bufSize := 128
  maxLen := 64
  domain := [97, 98, 46, 99]
  addr := [192, 168, 4, 1]
  string := by decide
  four := rfl

def labelAb : Label := ⟨[97, 98], Nat.succ_pos 1, Nat.le_of_ble_eq_true rfl, by decide⟩

def labelC : Label := ⟨[99], Nat.succ_pos 0, Nat.le_of_ble_eq_true rfl, by decide⟩

def addressAsked : Query := ⟨7, 256, 0, [⟨[labelAb, labelC], 1, 1⟩], Nat.le_of_ble_eq_true rfl, []⟩

theorem reply_consistent_address :
    serve accessPoint (addressAsked.wire ++ []) = .ok (addressAsked.reply accessPoint).wire :=
  (reply_consistent accessPoint addressAsked [] ⟨Nat.succ_pos 0, by decide +kernel, by decide, by decide +kernel⟩).2
    ⟨rfl, by simp only [addressAsked, mem_singleton, forall_eq, Name.Solid]; decide⟩

/-! ### Replies that are not consistent -/

theorem Query.Met.length_eq {q : Query} (h : q.Met cfg response) (hanswers : (q.reply cfg).answers = []) :
    response.length = 12 + (q.questions.flatMap Ask.wire).length := by
  obtain ⟨r, -, hquestions, hnone, rfl⟩ := h
  have hlength := (hquestions.flatMap_right Ask.wire).length_eq
  rw [hanswers, perm_nil] at hnone
  simp only [Reply.wire, hnone, flatMap_nil, append_nil, length_append, hlength, Width.length_put]
  rfl

def labelZero : Label := ⟨[97, 0], Nat.succ_pos 1, Nat.le_of_ble_eq_true rfl, by decide⟩

def twoAsked : Query := ⟨7, 256, 0, [⟨[labelAb], 16, 1⟩, ⟨[labelC], 16, 1⟩], Nat.le_of_ble_eq_true rfl, []⟩

def rootAsked : Query := ⟨7, 256, 0, [⟨[], 16, 1⟩], Nat.le_of_ble_eq_true rfl, []⟩

def zeroAsked : Query := ⟨7, 256, 0, [⟨[labelZero], 16, 1⟩], Nat.le_of_ble_eq_true rfl, []⟩

/-- The header of the response to `count` questions of type TXT, which is not implemented. -/
def refusal (count : Nat) : Bytes :=
  Width.two.put 7 ++ Width.two.put (2 ^ 15 + 4) ++ Width.two.put count ++ Width.two.put 0 ++ Width.two.put 0 ++
    Width.two.put 0

/-- Of two questions the second one is sent, behind a count of two; the root is sent as an empty label
and its end; of a name with a zero the part in front of it is sent. -/
theorem question_not_repeated :
    (twoAsked.Fits accessPoint ∧
      serve accessPoint twoAsked.wire = .ok (refusal 2 ++ Ask.wire ⟨[labelC], 16, 1⟩) ∧
      ¬ twoAsked.Met accessPoint (refusal 2 ++ Ask.wire ⟨[labelC], 16, 1⟩)) ∧
    (rootAsked.Fits accessPoint ∧
      serve accessPoint rootAsked.wire = .ok (refusal 1 ++ [0, 0, 0, 16, 0, 1]) ∧
      ¬ rootAsked.Met accessPoint (refusal 1 ++ [0, 0, 0, 16, 0, 1])) ∧
    (zeroAsked.Fits accessPoint ∧
      serve accessPoint zeroAsked.wire = .ok (refusal 1 ++ [1, 97, 0, 0, 16, 0, 1]) ∧
      ¬ zeroAsked.Met accessPoint (refusal 1 ++ [1, 97, 0, 0, 16, 0, 1])) := by
  refine ⟨⟨⟨Nat.succ_pos 1, by decide +kernel, ?_, by decide +kernel⟩, by decide +kernel, fun h => ?_⟩,
    ⟨⟨Nat.succ_pos 0, by decide +kernel, ?_, by decide +kernel⟩, by decide +kernel, fun h => ?_⟩,
    ⟨⟨Nat.succ_pos 0, by decide +kernel, ?_, by decide +kernel⟩, by decide +kernel, fun h => ?_⟩⟩
  · decide
  · exact absurd (h.length_eq rfl) (by decide +kernel)
  · decide
  · exact absurd (h.length_eq rfl) (by decide +kernel)
  · decide
  · exact absurd (h.length_eq rfl) (by decide +kernel)

end Qumios.Dns
