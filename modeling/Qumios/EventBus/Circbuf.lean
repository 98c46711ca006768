import Qumios.Lib.Buffer
import Qumios.Lib.Ring

/-! The queue of the event bus (`circbuf_var.c`): byte strings in a ring, each behind a
byte with its length.

`Queues cb elems` says which strings are queued. The three operations the bus uses
append one, show the first and leave it behind. -/
namespace Qumios.EventBus
open RingBuffer List

/-- `circbuf_var_t`; `size` is the length of the buffer. The indices stay below it, and an
element takes two bytes at least, so none of the 16-bit fields wraps. -/
structure Circbuf where
  buffer : Bytes := []
  pushIndex : Nat := 0
  popIndex : Nat := 0
  elemCnt : Nat := 0
  deriving DecidableEq, Repr

namespace Circbuf

def size (cb : Circbuf) : Nat := cb.buffer.length

/-- `circbuf_var_init`; `size` becomes a `uint16_t`, and without one the queue stays as it is
after the start: all zero. -/
def init (size : Nat) : Circbuf := { buffer := List.replicate (size % 65536) 0 }

/-- `circbuf_var_free_space`. -/
def freeSpace (cb : Circbuf) : Nat :=
  cb.size - (cb.pushIndex + cb.size - cb.popIndex) % cb.size - 1

/-- `circbuf_var_push_elem`; `none` is an error. -/
def pushElem (cb : Circbuf) (elem : Bytes) (size : UInt8) : Option Circbuf :=
  if size = 0 ∨ cb.size = 0 then none
  else if cb.freeSpace < size.toNat + 1 then none
  else
    let data := size :: elem.take size.toNat
    some
      { cb with
        buffer := write cb.buffer (cb.pushIndex % cb.size) data
        pushIndex := (cb.pushIndex + data.length) % cb.size
        elemCnt := cb.elemCnt + 1 }

/-- `circbuf_var_pop` with `read_only`; `none` is an error. -/
def pop (cb : Circbuf) (size : Nat) : Option Bytes :=
  if cb.size = 0 ∨ cb.elemCnt = 0 then none
  else
    match cb.buffer[cb.popIndex]? with
    | none => none
    | some elemSize => some (read cb.buffer ((cb.popIndex + 1) % cb.size) (min size elemSize.toNat))

/-- `circbuf_var_drop_cur_elem`. -/
def dropCurElem (cb : Circbuf) : Circbuf :=
  if cb.elemCnt = 0 ∨ cb.size = 0 then cb
  else
    match cb.buffer[cb.popIndex]? with
    | none => cb
    | some header =>
      { cb with popIndex := (cb.popIndex + header.toNat + 1) % cb.size, elemCnt := cb.elemCnt - 1 }

def contents (cb : Circbuf) : List Bytes := go cb.elemCnt cb.popIndex
where
  go : Nat → Nat → List Bytes
    | 0, _ => []
    | n + 1, i =>
      match cb.buffer[i]? with
      | none => []
      | some header =>
        read cb.buffer ((i + 1) % cb.size) header.toNat :: go n ((i + header.toNat + 1) % cb.size)

end Circbuf

/-! ### The strings that are queued -/

def element (data : Bytes) : Bytes := UInt8.ofNat data.length :: data

def wire (elems : List Bytes) : Bytes := elems.flatMap element

def Fits (data : Bytes) : Prop := 0 < data.length ∧ data.length < 256

theorem Fits.header {data : Bytes} (h : Fits data) : (UInt8.ofNat data.length).toNat = data.length := by
  exact Nat.mod_eq_of_lt h.2

/-- The strings `elems` are queued. -/
structure Lined (cb : Circbuf) (elems : List Bytes) : Prop where
  fit : ∀ e ∈ elems, Fits e
  count : cb.elemCnt = elems.length
  holds : Holds cb.buffer cb.popIndex (wire elems)
  room : (wire elems).length < cb.size
  push : cb.pushIndex = (cb.popIndex + (wire elems).length) % cb.size

/-- The strings `elems` are queued, or there is no buffer and nothing is. -/
def Queues (cb : Circbuf) (elems : List Bytes) : Prop :=
  (cb.size = 0 ∧ cb.elemCnt = 0 ∧ elems = []) ∨ Lined cb elems

section Queues
variable {cb : Circbuf} {elems : List Bytes} {data : Bytes}

theorem queues_init (size : Nat) : Queues (.init size) [] := by
  by_cases h : size % 65536 = 0
  · exact .inl ⟨by simp [Circbuf.init, Circbuf.size, h], rfl, rfl⟩
  · have hpos : 0 < (Circbuf.init size).size := by
      rw [Circbuf.size, Circbuf.init, length_replicate]
      exact Nat.pos_of_ne_zero h
    exact .inr ⟨fun e he => absurd he (not_mem_nil), rfl, .nil hpos, hpos, (Nat.zero_mod _).symm⟩

theorem Queues.count (h : Queues cb elems) : cb.elemCnt = elems.length := by
  rcases h with ⟨_, hc, rfl⟩ | h
  · exact hc
  · exact h.count

theorem Lined.free (h : Lined cb elems) : cb.freeSpace = cb.size - (wire elems).length - 1 := by
  have hpop : cb.popIndex < cb.size := h.holds.start
  rw [Circbuf.freeSpace, h.push, distance hpop h.room]

@[simp] theorem length_element (data : Bytes) : (element data).length = data.length + 1 := rfl

theorem wire_concat (data : Bytes) (elems : List Bytes) : wire (elems ++ [data]) = wire elems ++ element data := by
  simp [wire]

theorem Lined.concat (h : Lined cb elems) (hfit : Fits data)
    (hroom : (wire elems).length + (element data).length < cb.size) :
    Lined
      { cb with
        buffer := write cb.buffer (cb.pushIndex % cb.size) (element data)
        pushIndex := (cb.pushIndex + (element data).length) % cb.size
        elemCnt := cb.elemCnt + 1 } (elems ++ [data]) where
  fit := forall_mem_append.mpr ⟨h.fit, forall_mem_singleton.mpr hfit⟩
  count := by rw [h.count, length_append, length_singleton]
  holds := by
    rw [wire_concat, h.push, Nat.mod_mod]
    exact h.holds.write (Nat.le_of_lt hroom)
  room := by
    rw [wire_concat, length_append, Circbuf.size, length_write]
    exact hroom
  push := by
    rw [wire_concat, length_append, h.push, Nat.mod_add_mod, Nat.add_assoc]
    simp only [Circbuf.size, length_write]

/-- A push that succeeds appends the element. -/
theorem Queues.pushElem {cb' : Circbuf} {elem : Bytes} {size : UInt8} (h : Queues cb elems)
    (hsize : size.toNat ≤ elem.length) (hp : cb.pushElem elem size = some cb') :
    Queues cb' (elems ++ [elem.take size.toNat]) := by
  have hlen : (elem.take size.toNat).length = size.toNat := length_take_of_le hsize
  have helem : element (elem.take size.toNat) = size :: elem.take size.toNat := by
    rw [element, hlen, UInt8.ofNat_toNat]
  rw [Circbuf.pushElem] at hp
  split at hp
  · cases hp
  · rename_i hne
    rw [not_or] at hne
    have h : Lined cb elems := h.resolve_left fun h => hne.2 h.1
    split at hp
    · cases hp
    · rename_i hroom
      rw [h.free] at hroom
      rw [← helem] at hp
      cases hp
      refine .inr (h.concat ⟨?_, ?_⟩ ?_)
      · rw [hlen]
        exact Nat.pos_of_ne_zero fun h0 => hne.1 (UInt8.toNat_inj.mp h0)
      · rw [hlen]
        exact size.toNat_lt
      · rw [length_element, hlen]
        omega

theorem Queues.lined (h : Queues cb (data :: elems)) : Lined cb (data :: elems) :=
  h.resolve_left fun h => cons_ne_nil _ _ h.2.2

theorem Lined.front (h : Lined cb (data :: elems)) : cb.buffer[cb.popIndex]? = some (UInt8.ofNat data.length) ∧
    Holds cb.buffer ((cb.popIndex + 1) % cb.size) (data ++ wire elems) :=
  have hholds : Holds cb.buffer cb.popIndex (UInt8.ofNat data.length :: (data ++ wire elems)) := h.holds
  ⟨hholds.front, hholds.tail⟩

theorem Queues.pop (h : Queues cb (data :: elems)) (size : Nat) : cb.pop size = some (data.take size) := by
  have h := h.lined
  obtain ⟨hfront, htail⟩ := h.front
  have hne : ¬ (cb.size = 0 ∨ cb.elemCnt = 0) := by
    rw [h.count, not_or]
    exact ⟨Nat.ne_zero_of_lt h.room, Nat.succ_ne_zero _⟩
  have hread : Holds cb.buffer ((cb.popIndex + 1) % cb.size) (data.take size ++ (data.drop size ++ wire elems)) := by
    rwa [← append_assoc, take_append_drop]
  rw [Circbuf.pop, if_neg hne, hfront]
  simp only [(h.fit data (mem_cons_self ..)).header, ← length_take, hread.read]

/-- The first element is left behind. -/
theorem Queues.dropCurElem (h : Queues cb (data :: elems)) : Queues cb.dropCurElem elems := by
  have h := h.lined
  obtain ⟨hfront, htail⟩ := h.front
  have hfit := h.fit data (mem_cons_self ..)
  have hne : ¬ (cb.elemCnt = 0 ∨ cb.size = 0) := by
    rw [h.count, not_or]
    exact ⟨Nat.succ_ne_zero _, Nat.ne_zero_of_lt h.room⟩
  have hwire : (wire (data :: elems)).length = data.length + 1 + (wire elems).length :=
    length_append
  have hroom := h.room
  have hpush := h.push
  have hnext : (cb.popIndex + data.length + 1) % cb.size = ((cb.popIndex + 1) % cb.size + data.length) % cb.size := by
    rw [Nat.mod_add_mod, Nat.add_right_comm]
  rw [Circbuf.dropCurElem, if_neg hne, hfront]
  simp only [hfit.header]
  refine .inr ⟨fun e he => h.fit e (mem_cons_of_mem _ he), ?_, ?_, ?_, ?_⟩
  · rw [h.count]
    rfl
  · rw [hnext]
    exact htail.drop
  · show (wire elems).length < cb.size
    omega
  · show cb.pushIndex = _ % cb.size
    rw [hpush, Nat.mod_add_mod]
    congr 1
    omega

theorem contents_go {n i : Nat} (hn : n = elems.length) (hfit : ∀ e ∈ elems, Fits e)
    (h : Holds cb.buffer i (wire elems)) : Circbuf.contents.go cb n i = elems := by
  induction elems generalizing n i with
  | nil => rw [hn]; rfl
  | cons data rest ih =>
    have hholds : Holds cb.buffer i (UInt8.ofNat data.length :: (data ++ wire rest)) := h
    have hnext : (i + data.length + 1) % cb.size = ((i + 1) % cb.size + data.length) % cb.size := by
      rw [Nat.mod_add_mod, Nat.add_right_comm]
    rw [hn, length_cons, Circbuf.contents.go, hholds.front]
    simp only [(hfit data (mem_cons_self ..)).header]
    have hrest : Circbuf.contents.go cb rest.length (((i + 1) % cb.size + data.length) % cb.size) = rest :=
      ih rfl (fun e he => hfit e (mem_cons_of_mem _ he)) hholds.tail.drop
    rw [hnext, hrest]
    exact congrArg (· :: rest) hholds.tail.read

theorem Queues.contents (h : Queues cb elems) : cb.contents = elems := by
  rcases h with ⟨_, hc, rfl⟩ | h
  · rw [Circbuf.contents, hc]
    rfl
  · exact contents_go h.count h.fit h.holds

end Queues

end Qumios.EventBus
