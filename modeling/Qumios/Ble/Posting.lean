import Qumios.Ble.Reassembly

/-! The two ways of a post: `qm_ble_generic_post` and `qm_ble_async_post_internal`.

A post is put together in one of two places. With nothing before it, it is staged in `tmp_buf` and
handed to the transport at once; otherwise it is staged behind a list node, in a block of its own,
and handed over when the node has come to the head of the list. Here is what each of the two writes
where, and what the transport is given (`Handed`). A call is taken as a whole; how posts and the end
of transmissions interleave is not looked at.

The two pieces of code agree about an error code with data behind it, and about data alone
(`Alike`). They do not where there is nothing to copy: the node's length is then not set, and what
is read as data was in the memory before. And an error code in front of a full payload is one byte
more than `tmp_buf` has. -/
namespace Qumios.Ble.Posting
open List

/-! ### Staging -/

def maxAsyncListNum : Nat := 10

/-- Memory, from the start of a buffer on. -/
abbrev Memory := Nat → UInt8

def Memory.read (m : Memory) (n : Nat) : Bytes := (List.range n).map m

/-- `memcpy(m + off, data, data.length)`. -/
def Memory.put (m : Memory) (off : Nat) (data : Bytes) : Memory := fun i =>
  if off ≤ i ∧ i < off + data.length then data.getD (i - off) 0 else m i

/-- The arguments of a post; `msg_id` and `err_code` by what they point to. -/
structure Request where
  isAck : Bool
  txType : UInt8
  msgId : UInt8
  cmd : UInt8
  errCode : Option UInt8
  buffer : Option Memory
  length : Nat

/-- What is copied from the caller's buffer, `if(buffer && length > 0)`. -/
def Request.data (req : Request) : Option Bytes :=
  if req.length > 0 then req.buffer.map fun b => b.read req.length else none

/-- A staging buffer, with where how many bytes were written to it. -/
structure Staged where
  memory : Memory
  len : Nat
  writes : List (Nat × Nat) := []

namespace Staged

def write (off : Nat) (data : Bytes) (st : Staged) : Staged :=
  { st with memory := st.memory.put off data, writes := st.writes ++ [(off, data.length)] }

def copy (off : Nat) (data : Option Bytes) (st : Staged) : Staged :=
  match data with
  | some data => st.write off data
  | none => st

/-- Nothing was written behind the first `room` bytes. -/
def Inside (room : Nat) (st : Staged) : Prop := ∀ w ∈ st.writes, w.1 + w.2 ≤ room

end Staged

/-- A post put together in `tmp_buf`. -/
def stageTmp (req : Request) (tmpBuf : Memory) : Staged :=
  match req.errCode with
  | some err => ({ memory := tmpBuf, len := req.length + 1 } : Staged).write 0 [err] |>.copy 1 req.data
  | none => ({ memory := tmpBuf, len := req.length } : Staged).copy 0 req.data

/-- A post put together behind a node, in a block that held `block` and `len` before. -/
def stageNode (req : Request) (block : Memory) (len : Nat) : Staged :=
  match req.errCode with
  | some err => ({ memory := block, len := req.length + 1 } : Staged).write 0 [err] |>.copy 1 req.data
  | none =>
    match req.data with
    | some data => ({ memory := block, len := req.length } : Staged).write 0 data
    | none => { memory := block, len := len }

/-! ### Posting -/

/-- The arguments of a call of `qm_ble_transport_tx`, with the bytes at its pointer. -/
structure Handed where
  txType : TxType
  msgId : UInt8
  cmd : UInt8
  payload : Bytes
  length : Nat
  deriving DecidableEq, Repr

/-- The call for a staged post; its length is an `uint16_t`. -/
def Staged.hand (txType : TxType) (msgId cmd : UInt8) (st : Staged) : Handed :=
  ⟨txType, msgId, cmd, st.memory.read (st.len % 65536), st.len % 65536⟩

/-- A node of the list: `qm_ble_async_data_t` and what its buffer holds. -/
structure Node where
  txType : TxType
  msgId : UInt8
  cmd : UInt8
  staged : Staged

def Node.hand (node : Node) : Handed := node.staged.hand node.txType node.msgId node.cmd

structure State where
  isBusy : Bool := false
  list : List Node := []
  tmpBuf : Memory := fun _ => 0
  /-- The counter of the transport. -/
  txMsgId : UInt8 := 0

def txTypeOf (txType : UInt8) : Option TxType :=
  if txType = 1 then some .indication else if txType = 0 then some .notification else none

/-- `qm_ble_async_busy`, after an indication the transport took. -/
def sent (txType : TxType) (err : RetCode) (s : State) : State :=
  if txType = .indication ∧ err = .success then { s with isBusy := true } else s

/-- `qm_ble_async_post_internal`, for what the transport answers. -/
def postInternal (tx : Handed → RetCode) (s : State) : State × List Handed :=
  match s.list with
  | [] => (s, [])
  | node :: rest => (sent node.txType (tx node.hand) { s with list := rest }, [node.hand])

/-- What a post leaves, returns, hands over and stages, with the size of the buffer it is staged in. -/
structure Outcome where
  state : State
  code : RetCode
  /-- `*msg_id`. -/
  msgId : UInt8
  handed : List Handed := []
  staged : Option (Staged × Nat) := none

/-- `*msg_id` of a post, and the counter. -/
def takeId (req : Request) (s : State) : UInt8 × State :=
  if req.isAck then (req.msgId, s) else (Transport.nextMsgId s.txMsgId, { s with txMsgId := Transport.nextMsgId s.txMsgId })

/-- `qm_ble_generic_post`, for what the transport answers and a block from `qm_ble_malloc` with what it holds. -/
def genericPost (cfg : Config) (tx : Handed → RetCode) (block : Option (Memory × Nat)) (req : Request) (s : State) :
    Outcome :=
  if req.length > cfg.maxPayloadSize then { state := s, code := .edatasize, msgId := req.msgId }
  else
    match txTypeOf req.txType with
    | none => { state := s, code := .einvalidparam, msgId := req.msgId }
    | some txType =>
      let listLen := s.list.length
      let (id, s) := takeId req s
      if !s.isBusy && listLen == 0 then
        let st := stageTmp req s.tmpBuf
        let call := st.hand txType id req.cmd
        { state := sent txType (tx call) { s with tmpBuf := st.memory }, code := tx call, msgId := id,
          handed := [call], staged := some (st, cfg.maxPayloadSize) }
      else if listLen ≥ maxAsyncListNum then { state := s, code := .ebusy, msgId := id }
      else
        match block with
        | none => { state := s, code := .emem, msgId := id }
        | some (memory, len) =>
          let st := stageNode req memory len
          let s := { s with list := s.list ++ [⟨txType, id, req.cmd, st⟩] }
          let (s, handed) := if s.isBusy then (s, []) else postInternal tx s
          { state := s, code := .success, msgId := id, handed := handed, staged := some (st, req.length + 1) }

/-- What the calls of `qm_ble_async_post_internal` that follow hand over. -/
def drain (tx : Handed → RetCode) : Nat → State → List Handed
  | 0, _ => []
  | n + 1, s => (postInternal tx s).2 ++ drain tx n (postInternal tx s).1

/-! ### What is staged -/

def Request.payload (req : Request) : Bytes := req.errCode.toList ++ req.data.getD []

/-- Posts both ways stage alike: an error code with data or without, one byte short of the largest payload, or
data alone. -/
def Request.Alike (cfg : Config) (req : Request) : Prop :=
  match req.errCode with
  | some _ => req.length < cfg.maxPayloadSize ∧ (req.length = 0 ∨ req.buffer.isSome)
  | none => req.length ≤ cfg.maxPayloadSize ∧ 0 < req.length ∧ req.buffer.isSome

theorem Memory.length_read (m : Memory) (n : Nat) : (m.read n).length = n := by
  rw [read, length_map, length_range]

theorem Memory.read_put (m : Memory) (off : Nat) (data : Bytes) :
    (m.put off data).read (off + data.length) = m.read off ++ data := by
  rw [read, range_add, map_append, map_map]
  congr 1
  · refine map_congr_left fun i hi => ?_
    have : ¬ (off ≤ i ∧ i < off + data.length) := fun h => absurd (mem_range.mp hi) (by omega)
    rw [put, if_neg this]
  · refine ext_getElem (by simp) fun i hi hi' => ?_
    rw [getElem_map, getElem_range, Function.comp_apply, put, if_pos ⟨by omega, by omega⟩,
      Nat.add_sub_cancel_left, getD_eq_getElem _ _ hi']

variable {req : Request} {room : Nat}

theorem Request.data_some (hpos : 0 < req.length) (hbuffer : req.buffer.isSome) :
    ∃ data, req.data = some data ∧ data.length = req.length := by
  obtain ⟨b, hb⟩ := Option.isSome_iff_exists.mp hbuffer
  refine ⟨b.read req.length, ?_, Memory.length_read _ _⟩
  rw [data, if_pos hpos, hb]
  rfl

theorem Request.data_none (hzero : req.length = 0) : req.data = none := by
  rw [data, if_neg (by omega)]

/-- The post is staged as it is meant, and inside the buffer. -/
structure Staged.Holds (req : Request) (room : Nat) (st : Staged) : Prop where
  payload : st.memory.read st.len = req.payload
  len : st.len ≤ room
  inside : st.Inside room

/-- An error code and what is behind it. -/
theorem Staged.holds_err {err : UInt8} (m : Memory) (herr : req.errCode = some err) (hroom : req.length + 1 ≤ room)
    (hbuffer : req.length = 0 ∨ req.buffer.isSome) :
    Holds req room (({ memory := m, len := req.length + 1 } : Staged).write 0 [err] |>.copy 1 req.data) := by
  have hone : (m.put 0 [err]).read 1 = [err] := m.read_put 0 [err]
  rcases Nat.eq_zero_or_pos req.length with hzero | hpos
  · rw [req.data_none hzero]
    refine ⟨?_, hroom, ?_⟩
    · rw [Request.payload, herr, req.data_none hzero, hzero]
      exact hone
    · intro w hw
      rw [mem_singleton.mp hw]
      show 0 + 1 ≤ room
      omega
  · obtain ⟨data, hdata, hlen⟩ := req.data_some hpos (hbuffer.resolve_left (by omega))
    rw [hdata]
    refine ⟨?_, hroom, ?_⟩
    · rw [Request.payload, herr, hdata, ← hlen, Nat.add_comm]
      refine ((m.put 0 [err]).read_put 1 data).trans ?_
      rfl
    · intro w hw
      obtain rfl | rfl : w = (0, 1) ∨ w = (1, data.length) := by simpa [copy, write] using hw
      · omega
      · omega

theorem Staged.holds_data (m : Memory) {data : Bytes} (herr : req.errCode = none) (hdata : req.data = some data)
    (hlen : data.length = req.length) (hroom : req.length ≤ room) :
    Holds req room (({ memory := m, len := req.length } : Staged).write 0 data) := by
  refine ⟨?_, hroom, ?_⟩
  · rw [Request.payload, herr, hdata, ← hlen, ← Nat.zero_add data.length]
    exact m.read_put 0 data
  · intro w hw
    rw [mem_singleton.mp hw]
    omega

section Alike
variable {cfg : Config} {req : Request} (halike : req.Alike cfg)
include halike

theorem stageTmp_holds (tmpBuf : Memory) : (stageTmp req tmpBuf).Holds req cfg.maxPayloadSize := by
  unfold stageTmp
  unfold Request.Alike at halike
  cases herr : req.errCode with
  | some err =>
    rw [herr] at halike
    exact Staged.holds_err tmpBuf herr halike.1 halike.2
  | none =>
    rw [herr] at halike
    obtain ⟨data, hdata, hlen⟩ := req.data_some halike.2.1 halike.2.2
    simp only [hdata]
    exact Staged.holds_data tmpBuf herr hdata hlen halike.1

theorem stageNode_holds (block : Memory) (len : Nat) : (stageNode req block len).Holds req (req.length + 1) := by
  unfold stageNode
  unfold Request.Alike at halike
  cases herr : req.errCode with
  | some err =>
    rw [herr] at halike
    exact Staged.holds_err block herr (Nat.le_refl _) halike.2
  | none =>
    rw [herr] at halike
    obtain ⟨data, hdata, hlen⟩ := req.data_some halike.2.1 halike.2.2
    simp only [hdata]
    exact Staged.holds_data block herr hdata hlen (Nat.le_succ _)

end Alike

theorem Staged.Holds.hand {st : Staged} (h : st.Holds req room) (hroom : room < 65536) (txType : TxType)
    (msgId cmd : UInt8) : st.hand txType msgId cmd = ⟨txType, msgId, cmd, req.payload, req.payload.length⟩ := by
  have hlen : st.len % 65536 = st.len := Nat.mod_eq_of_lt (Nat.lt_of_le_of_lt h.len hroom)
  rw [Staged.hand, hlen, h.payload, ← h.payload, Memory.length_read]

/-! ### The list -/

theorem list_sent (txType : TxType) (err : RetCode) (s : State) : (sent txType err s).list = s.list := by
  unfold sent
  split <;> rfl

theorem list_postInternal (tx : Handed → RetCode) (s : State) : (postInternal tx s).1.list = s.list.tail := by
  unfold postInternal
  split
  · next h => rw [h]; rfl
  · next h => rw [list_sent, h]; rfl

theorem handed_postInternal (tx : Handed → RetCode) (s : State) :
    (postInternal tx s).2 = (s.list.take 1).map Node.hand := by
  unfold postInternal
  split
  · next h => rw [h]; rfl
  · next h => rw [h]; rfl

/-- **The calls that follow** hand over the posts of the list, in its order. -/
theorem drain_eq (tx : Handed → RetCode) (n : Nat) (s : State) : drain tx n s = (s.list.take n).map Node.hand := by
  induction n generalizing s with
  | zero => rfl
  | succ n ih =>
    rw [drain, ih, list_postInternal, handed_postInternal, ← map_append]
    cases s.list <;> simp

theorem takeId_same (req : Request) (s : State) :
    (takeId req s).2.list = s.list ∧ (takeId req s).2.isBusy = s.isBusy := by
  unfold takeId
  split <;> exact ⟨rfl, rfl⟩

theorem takeId_id {s q : State} (h : s.txMsgId = q.txMsgId) : (takeId req s).1 = (takeId req q).1 := by
  unfold takeId
  split
  · rfl
  · rw [h]

/-! ### The two ways -/

/-- Either the same call reaches the transport, from the list as the last of the calls that empty it, or the caller
is told of the same error. -/
inductive Agree (tx : Handed → RetCode) (direct queued : Outcome) : Prop where
  | handed (call : Handed) (hdirect : direct.handed = [call]) (hcode : queued.code = .success)
      (hqueued : (drain tx queued.state.list.length queued.state).getLast? = some call)
  | refused (hcode : direct.code = queued.code) (herr : direct.code ≠ .success) (hdirect : direct.handed = [])
      (hqueued : queued.handed = [])

def Outcome.Inside (o : Outcome) : Prop := ∀ x ∈ o.staged, x.1.Inside x.2

theorem turned_away (tx : Handed → RetCode) (s q : State) {code : RetCode} (herr : code ≠ .success) (msgId : UInt8) :
    Agree tx { state := s, code := code, msgId := msgId } { state := q, code := code, msgId := msgId } ∧
      Outcome.Inside { state := s, code := code, msgId := msgId } ∧
      Outcome.Inside { state := q, code := code, msgId := msgId } :=
  ⟨.refused rfl herr rfl rfl, fun x hx => absurd hx (Option.not_mem_none x),
    fun x hx => absurd hx (Option.not_mem_none x)⟩

section Ways
variable {cfg : Config} (tx : Handed → RetCode) {req : Request} {s : State} {txType : TxType}
  (hlen : req.length ≤ cfg.maxPayloadSize) (htype : txTypeOf req.txType = some txType)
include hlen htype

theorem genericPost_direct (block : Option (Memory × Nat)) (hfree : s.isBusy = false ∧ s.list = []) :
    (genericPost cfg tx block req s).handed =
        [(stageTmp req (takeId req s).2.tmpBuf).hand txType (takeId req s).1 req.cmd] ∧
      (genericPost cfg tx block req s).staged = some (stageTmp req (takeId req s).2.tmpBuf, cfg.maxPayloadSize) := by
  have hnow : (!(takeId req s).2.isBusy && s.list.length == 0) = true := by
    rw [(takeId_same req s).2, hfree.1, hfree.2]
    rfl
  unfold genericPost
  rw [if_neg (by omega), htype]
  dsimp only
  rw [if_pos hnow]
  exact ⟨rfl, rfl⟩

theorem genericPost_queued (memory : Memory) (len : Nat) (hqueue : s.isBusy = true ∨ s.list ≠ [])
    (hroom : s.list.length < maxAsyncListNum) :
    (genericPost cfg tx (some (memory, len)) req s).code = .success ∧
      (genericPost cfg tx (some (memory, len)) req s).state.list.getLast? =
        some ⟨txType, (takeId req s).1, req.cmd, stageNode req memory len⟩ ∧
      (genericPost cfg tx (some (memory, len)) req s).staged = some (stageNode req memory len, req.length + 1) := by
  obtain ⟨hlist, hbusy⟩ := takeId_same req s
  have hlater : ¬ (!(takeId req s).2.isBusy && s.list.length == 0) = true := by
    rw [hbusy]
    rcases hqueue with h | h <;> simp [h]
  unfold genericPost
  rw [if_neg (by omega), htype]
  dsimp only
  rw [if_neg hlater, if_neg (by omega)]
  refine ⟨rfl, ?_, rfl⟩
  rw [hlist, hbusy]
  cases hb : s.isBusy with
  | true => simp
  | false =>
    -- The call from inside the post takes an older node.
    have hne : s.list ≠ [] := hqueue.resolve_left (by simp [hb])
    rw [if_neg (by decide), list_postInternal]
    rw [tail_append_of_ne_nil hne, getLast?_append]
    rfl

end Ways

/-- A post is handed to the transport in the same call whether it is sent at once or from the list, or turned away with
the same error, and what is staged is written inside the buffer: whatever was in the memory it is staged in. -/
def OneWay (cfg : Config) (req : Request) : Prop :=
  ∀ (tx tx' later : Handed → RetCode) (block : Option (Memory × Nat)) (memory : Memory) (len : Nat) (s q : State),
    (s.isBusy = false ∧ s.list = []) → ((q.isBusy = true ∨ q.list ≠ []) ∧ q.list.length < maxAsyncListNum) →
    s.txMsgId = q.txMsgId →
    Agree later (genericPost cfg tx block req s) (genericPost cfg tx' (some (memory, len)) req q) ∧
      (genericPost cfg tx block req s).Inside ∧ (genericPost cfg tx' (some (memory, len)) req q).Inside

theorem routes_agree (cfg : Config) (tx tx' later : Handed → RetCode) (block : Option (Memory × Nat))
    (memory : Memory) (len : Nat) (req : Request) (s q : State) (hfree : s.isBusy = false ∧ s.list = [])
    (hqueue : (q.isBusy = true ∨ q.list ≠ []) ∧ q.list.length < maxAsyncListNum) (hid : s.txMsgId = q.txMsgId)
    (halike : req.length ≤ cfg.maxPayloadSize → txTypeOf req.txType ≠ none → req.Alike cfg) :
    Agree later (genericPost cfg tx block req s) (genericPost cfg tx' (some (memory, len)) req q) ∧
      (genericPost cfg tx block req s).Inside ∧ (genericPost cfg tx' (some (memory, len)) req q).Inside := by
  by_cases hlen : req.length ≤ cfg.maxPayloadSize
  · cases htype : txTypeOf req.txType with
    | none =>
      simp only [genericPost, if_neg (Nat.not_lt.mpr hlen), htype]
      exact turned_away later s q (by decide) req.msgId
    | some txType =>
      have halike := halike hlen (by simp [htype])
      have hmax := cfg.maxPayloadSize_le
      obtain ⟨hhanded, hdirect⟩ := genericPost_direct tx hlen htype block hfree
      obtain ⟨hcode, hlast, hqueued⟩ := genericPost_queued tx' hlen htype memory len hqueue.1 hqueue.2
      have hnode := stageNode_holds halike memory len
      have htmp := stageTmp_holds halike (takeId req s).2.tmpBuf
      refine ⟨.handed _ hhanded hcode ?_, ?_, ?_⟩
      · rw [drain_eq, take_length, getLast?_map, hlast, Option.map_some, Node.hand,
          hnode.hand (by omega), htmp.hand (by omega), takeId_id hid]
      · intro x hx
        rw [hdirect] at hx
        cases hx
        exact htmp.inside
      · intro x hx
        rw [hqueued] at hx
        cases hx
        exact hnode.inside
  · simp only [genericPost, if_pos (Nat.lt_of_not_le hlen)]
    exact turned_away later s q (by decide) req.msgId

/-- What the two ways have in common is seen in a clear `tmp_buf` and a block that is not clear. -/
theorem OneWay.stages {cfg : Config} {req : Request} {txType : TxType} (h : OneWay cfg req)
    (hlen : req.length ≤ cfg.maxPayloadSize) (htype : txTypeOf req.txType = some txType) (len : Nat) :
    (stageTmp req fun _ => 0).Inside cfg.maxPayloadSize ∧ ∀ msgId,
      (stageTmp req fun _ => 0).hand txType msgId req.cmd = (stageNode req (fun _ => 9) len).hand txType msgId req.cmd := by
  obtain ⟨hagree, hinside, -⟩ := h (fun _ => .success) (fun _ => .success) (fun _ => .success) none (fun _ => 9) len {}
    { isBusy := true } ⟨rfl, rfl⟩ ⟨.inl rfl, by decide⟩ rfl
  obtain ⟨hhanded, hdirect⟩ := genericPost_direct (fun _ => .success) hlen htype none (s := {}) ⟨rfl, rfl⟩
  obtain ⟨-, hlast, -⟩ := genericPost_queued (s := { isBusy := true }) (fun _ => .success) hlen htype (fun _ => 9) len
    (.inl rfl) (by decide)
  have htmp : (takeId req {}).2.tmpBuf = fun _ => 0 := by
    unfold takeId
    split <;> rfl
  rw [htmp] at hhanded hdirect
  refine ⟨hinside _ hdirect, fun msgId => ?_⟩
  cases hagree with
  | handed call hcall _ hqueued =>
    rw [drain_eq, take_length, getLast?_map, hlast] at hqueued
    have heq := (cons.inj (hhanded.symm.trans hcall)).1.trans (Option.some.inj hqueued).symm
    simp only [Node.hand, Staged.hand, Handed.mk.injEq, true_and] at heq ⊢
    exact heq.2
  | refused _ _ hnone => exact absurd (hhanded.symm.trans hnone) (cons_ne_nil _ _)

/-- **Both ways are one** exactly for the posts that are turned away and those whose data is there, with an error
code one byte short of the largest payload. -/
theorem post_routes_agree (cfg : Config) (req : Request) :
    OneWay cfg req ↔ (req.length ≤ cfg.maxPayloadSize → txTypeOf req.txType ≠ none → req.Alike cfg) := by
  refine ⟨fun h hlen htype => ?_, fun halike tx tx' later block memory len s q hfree hqueue hid =>
    routes_agree cfg tx tx' later block memory len req s q hfree hqueue hid halike⟩
  obtain ⟨txType, htype⟩ := Option.ne_none_iff_exists'.mp htype
  have hmax := cfg.maxPayloadSize_le
  -- a length in the node's memory that is not that of the post
  obtain ⟨hinside, hsame⟩ := h.stages hlen htype (if req.length = 0 then 7 else 0)
  have hsame := hsame 0
  have hthere : ∀ {data}, req.data = some data → 0 < req.length ∧ req.buffer.isSome ∧ data.length = req.length := by
    intro data hdata
    rw [Request.data] at hdata
    split at hdata
    · next hpos =>
      obtain ⟨b, hb, rfl⟩ := Option.map_eq_some_iff.mp hdata
      exact ⟨hpos, by rw [hb]; rfl, Memory.length_read _ _⟩
    · cases hdata
  unfold Request.Alike
  cases herr : req.errCode with
  | some err =>
    cases hdata : req.data with
    | some data =>
      obtain ⟨-, hbuffer, hsize⟩ := hthere hdata
      have hroom := hinside (1, data.length) (by simp [stageTmp, herr, hdata, Staged.copy, Staged.write])
      exact ⟨by omega, .inr hbuffer⟩
    | none =>
      have hroom := hinside (0, 1) (by simp [stageTmp, herr, hdata, Staged.copy, Staged.write])
      rcases Nat.eq_zero_or_pos req.length with hzero | hpos
      · exact ⟨by omega, .inl hzero⟩
      · -- the byte behind the error code is the one that was there
        have hbytes := congrArg (fun c : Handed => c.payload[1]?) hsame
        have hlong : 1 < (req.length + 1) % 65536 := by omega
        simp [Staged.hand, stageTmp, stageNode, herr, hdata, Staged.copy, Staged.write, Memory.read, Memory.put,
          hlong] at hbytes
  | none =>
    cases hdata : req.data with
    | some data =>
      obtain ⟨hpos, hbuffer, -⟩ := hthere hdata
      exact ⟨hlen, hpos, hbuffer⟩
    | none =>
      have hlength := congrArg Handed.length hsame
      simp only [Staged.hand, stageTmp, stageNode, herr, hdata, Staged.copy] at hlength
      split at hlength <;> omega

def ackTwo : Request := ⟨true, 1, 3, Cmd.set, some 0, some fun i => UInt8.ofNat (i + 5), 2⟩

def takes : Handed → RetCode := fun _ => .success

theorem post_routes_agree_two :
    Agree takes (genericPost Transport.shortConfig takes none ackTwo {})
        (genericPost Transport.shortConfig takes (some (fun _ => 9, 7)) ackTwo { isBusy := true }) ∧
      (genericPost Transport.shortConfig takes none ackTwo {}).Inside ∧
      (genericPost Transport.shortConfig takes (some (fun _ => 9, 7)) ackTwo { isBusy := true }).Inside :=
  (post_routes_agree Transport.shortConfig ackTwo).mpr (fun _ _ => ⟨by decide, .inr rfl⟩) takes takes takes none
    (fun _ => 9) 7 {} { isBusy := true } ⟨rfl, rfl⟩ ⟨.inl rfl, by decide⟩ rfl

/-! ### Where they differ -/

def ackFull : Request := ⟨true, 1, 3, Cmd.set, some 0, some fun i => UInt8.ofNat i, 80⟩

def postEmpty : Request := ⟨false, 1, 0, Cmd.report, none, none, 0⟩

/-- Behind an error code a full payload is written one byte past `tmp_buf`; and a post without data, queued, goes
out with the length that was in the memory of its node. -/
theorem post_routes_differ :
    (ackFull.length ≤ Transport.shortConfig.maxPayloadSize ∧
      ¬ (genericPost Transport.shortConfig takes none ackFull {}).Inside) ∧
    postEmpty.length ≤ Transport.shortConfig.maxPayloadSize ∧
      ¬ Agree takes (genericPost Transport.shortConfig takes none postEmpty {})
        (genericPost Transport.shortConfig takes (some (fun _ => 9, 7)) postEmpty { isBusy := true }) := by
  refine ⟨⟨by decide, fun h => ?_⟩, by decide, fun h => ?_⟩
  · have hover := h (stageTmp ackFull fun _ => 0, 80) rfl (1, 80) (by decide)
    exact absurd hover (by decide)
  · cases h with
    | handed call hdirect _ hqueued =>
      have hnone : (genericPost Transport.shortConfig takes none postEmpty {}).handed =
          [⟨.indication, 1, Cmd.report, [], 0⟩] := by decide
      have hjunk : (drain takes 1 (genericPost Transport.shortConfig takes (some (fun _ => 9, 7)) postEmpty
          { isBusy := true }).state).getLast? =
          some ⟨.indication, 1, Cmd.report, [9, 9, 9, 9, 9, 9, 9], 7⟩ := by decide
      obtain rfl := (List.cons.inj hdirect).1
      exact absurd (hqueued.symm.trans hjunk) (by decide)
    | refused _ herr => exact herr rfl

end Qumios.Ble.Posting
