import Qumios.Lib.Wire

/-! The name server of the access point (`dns_server.c`).

A query is decoded into linked lists, the answers are put beside the questions, and both are
encoded into the buffer the query came in. The head of the list of questions is read once,
before the loop that prepends to it: every question is put in front of the empty list, and
the last one is what is left of them.

Reads go over the whole buffer, whatever part of it was received. A name is a string of C: it
ends with its first zero. -/
namespace Qumios.Dns
open Wire

def dot : UInt8 := 46

/-- The size of the buffer, `CONFIG_DNS_DOMAIN_MAX_LEN`, and what `dns_server_ip_register` was given. -/
structure Config where
  bufSize : Nat
  maxLen : Nat
  domain : Bytes
  addr : Bytes
  string : 0 ∉ domain
  four : addr.length = 4

/-- A call ends with a value, or with nothing sent, or goes out of bounds. -/
inductive Result (α : Type) where
  | ok (value : α)
  | refused
  | fault
  deriving DecidableEq, Repr

/-- `struct Question`. -/
structure Question where
  qName : Bytes
  qType : Nat
  qClass : Nat
  deriving DecidableEq, Repr

/-- `struct ResourceRecord`, with the bytes of `rd_data` that its type has. -/
structure ResourceRecord where
  name : Bytes
  type : Nat
  cls : Nat
  ttl : Nat
  rdLength : Nat
  rdData : Bytes
  deriving DecidableEq, Repr

/-- `struct Message`, with the fields that are sent or checked. -/
structure Message where
  id : Nat
  qr : Nat
  rcode : Nat
  qdCount : Nat
  anCount : Nat
  nsCount : Nat
  arCount : Nat
  questions : List Question
  answers : List ResourceRecord
  deriving DecidableEq, Repr

/-! ### Decoding -/

/-- The loop of `decode_domain_name`, for so many labels; the first one has no dot in front of it. -/
def decodeLabels : Nat → Bytes → Bool → Option (Bytes × Bytes)
  | 0, _, _ => none
  | _ + 1, [], _ => none
  | fuel + 1, len :: buf, first =>
    if len = 0 then some ([], buf)
    else if len.toNat ≤ buf.length then
      match decodeLabels fuel (buf.drop len.toNat) false with
      | none => none
      | some (name, rest) => some ((if first then [] else [dot]) ++ buf.take len.toNat ++ name, rest)
    else none

/-- `decode_domain_name`: `strdup` copies up to the first zero. -/
def decodeDomainName (cfg : Config) (buffer : Bytes) : Option (Bytes × Bytes) :=
  match decodeLabels (buffer.length + 1) buffer true with
  | none => none
  | some (name, rest) => if name.length ≤ cfg.maxLen then some (name.takeWhile (· ≠ 0), rest) else none

/-- One round of the loop of `decode_msg`. -/
def decodeQuestion (cfg : Config) (buffer : Bytes) : Option (Question × Bytes) :=
  match decodeDomainName cfg buffer with
  | none => none
  | some (qName, buffer) =>
    match Width.two.get buffer with
    | none => none
    | some (qType, buffer) =>
      match Width.two.get buffer with
      | none => none
      | some (qClass, buffer) => some (⟨qName, qType, qClass⟩, buffer)

/-- The loop of `decode_msg`: `qs` does not change, `questions` is what `msg->questions` is. -/
def decodeQuestions (cfg : Config) (qs : List Question) : Nat → Bytes → List Question → Option (List Question)
  | 0, _, questions => some questions
  | count + 1, buffer, _ =>
    match decodeQuestion cfg buffer with
    | none => none
    | some (q, buffer) => decodeQuestions cfg qs count buffer (q :: qs)

/-- `decode_header`: the numbers of the header, in order. -/
def decodeHeader : Nat → Bytes → Option (List Nat × Bytes)
  | 0, buffer => some ([], buffer)
  | n + 1, buffer =>
    match Width.two.get buffer with
    | none => none
    | some (field, buffer) => (decodeHeader n buffer).map fun r => (field :: r.1, r.2)

/-- `decode_msg`. -/
def decodeMsg (cfg : Config) (buffer : Bytes) : Result Message :=
  match decodeHeader 6 buffer with
  | some ([id, fields, qdCount, anCount, nsCount, arCount], buffer) =>
    if anCount ≠ 0 ∨ nsCount ≠ 0 then .refused
    else
      match decodeQuestions cfg [] qdCount buffer [] with
      | none => .fault
      | some questions =>
        .ok ⟨id, fields / 2 ^ 15, fields % 16, qdCount, anCount, nsCount, arCount, questions, []⟩
  | _ => .fault

/-! ### Resolving -/

/-- `get_A_Record`. -/
def getARecord (cfg : Config) (name : Bytes) : Option Bytes := if cfg.domain = name then some cfg.addr else none

/-- The loop of `resolver_process`. There are no records of type AAAA (28). -/
def resolveLoop (cfg : Config) : List Question → Message → Message
  | [], msg => msg
  | q :: rest, msg =>
    if q.qType = 1 then
      match getARecord cfg q.qName with
      | none => resolveLoop cfg rest msg
      | some addr =>
        resolveLoop cfg rest
          { msg with
            anCount := (msg.anCount + 1) % 2 ^ 16
            answers := ⟨q.qName, q.qType, q.qClass, 3600, 4, addr⟩ :: msg.answers }
    else if q.qType = 28 then resolveLoop cfg rest msg
    else resolveLoop cfg rest { msg with rcode := 4 }

/-- `resolver_process`. -/
def resolverProcess (cfg : Config) (msg : Message) : Message :=
  resolveLoop cfg msg.questions { msg with qr := 1, rcode := 0, anCount := 0, nsCount := 0, arCount := 0 }

/-! ### Encoding -/

/-- The loop of `encode_domain_name`, with the label that was begun. -/
def encodeLabels (label : Bytes) : Bytes → Bytes
  | [] => UInt8.ofNat label.length :: label ++ [0]
  | c :: rest =>
    if c = dot then UInt8.ofNat label.length :: label ++ encodeLabels [] rest
    else encodeLabels (label ++ [c]) rest

/-- `encode_domain_name`. -/
def encodeDomainName (domain : Bytes) : Bytes := encodeLabels [] domain

/-- `encode_header`. -/
def encodeHeader (msg : Message) : Bytes :=
  Width.two.put msg.id ++ Width.two.put (msg.qr * 2 ^ 15 + msg.rcode % 16) ++ Width.two.put msg.qdCount ++
    Width.two.put msg.anCount ++ Width.two.put msg.nsCount ++ Width.two.put msg.arCount

def encodeQuestion (q : Question) : Bytes :=
  encodeDomainName q.qName ++ Width.two.put q.qType ++ Width.two.put q.qClass

/-- `put32bits` of a number of 16 bits. -/
def put32 (n : Nat) : Bytes := Width.two.put 0 ++ Width.two.put n

def encodeRecord (rr : ResourceRecord) : Bytes :=
  encodeDomainName rr.name ++ Width.two.put rr.type ++ Width.two.put rr.cls ++ put32 rr.ttl ++
    Width.two.put rr.rdLength ++ rr.rdData

/-- `encode_resource_records`: it stops at a record of another type than A or AAAA. -/
def encodeResourceRecords : List ResourceRecord → Option Bytes
  | [] => some []
  | rr :: rest =>
    if rr.type = 1 ∨ rr.type = 28 then (encodeResourceRecords rest).map fun bytes => encodeRecord rr ++ bytes
    else none

/-- `encode_msg`. Nothing is ever put into `authorities` and `additionals`. -/
def encodeMsg (cfg : Config) (msg : Message) : Result Bytes :=
  match encodeResourceRecords msg.answers with
  | none => .refused
  | some answers =>
    let response := encodeHeader msg ++ msg.questions.flatMap encodeQuestion ++ answers
    if response.length ≤ cfg.bufSize then .ok response else .fault

/-- One round of `dns_server_task`: what is sent in reply to what is in the buffer. -/
def serve (cfg : Config) (buffer : Bytes) : Result Bytes :=
  match decodeMsg cfg buffer with
  | .ok msg => encodeMsg cfg (resolverProcess cfg msg)
  | .refused => .refused
  | .fault => .fault

end Qumios.Dns
