import Qumios.Lib.Buffer
import Qumios.Lib.Run

/-! The download of a firmware image from the cloud (`qm_iot_ota.c`).

A job announces a file; its blocks are asked for one at a time and come as messages of
their own. A block is taken if its number is above that of the last one taken. It is
then written and fed to the signature, and the next block is asked for by a count of
the blocks taken so far. Count and number agree as long as no message is ahead of what
has been asked for. -/
namespace Qumios.Cloud
open Run List

/-- `CONFIG_QM_IOT_STREAMS_BLOCK_SIZE`. -/
def streamsBlockSize : Nat := 2048

/-- What a message says, once it is decoded. -/
structure Block where
  fileId : Int
  blockId : Int
  blockSize : Int
  payload : Bytes
  /-- Block numbers are `int`s. -/
  int : blockId < 2 ^ 31

/-- `qm_iot_jobs_file_t`: what the job says of the file. -/
structure Document where
  fileId : Nat
  fileSize : Nat
  uint : fileSize < 2 ^ 32

/-- `qm_iot_ota_handle_t`: where the session stands. -/
structure Handle where
  lastReceivedblockId : Int
  currentBlockOffset : Nat
  totalBytesReceived : Nat
  deriving DecidableEq, Repr

inductive Action where
  | otaWrite (data : Bytes)
  | signatureUpdate (data : Bytes)
  /-- The blocks are asked for from this one on. -/
  | request (blockOffset : Nat)
  | progress (details : Nat)
  | failed
  deriving DecidableEq, Repr

inductive Event where
  /-- A data block message; `none` where it cannot be decoded. -/
  | message (block : Option Block)
  /-- `qm_iot_ota_retry_timeout`, with retries left or none. -/
  | timeout (left : Bool)

/-- What `qm_iot_ota_notify_next_handler` and the START event set. -/
def start : Handle where
  lastReceivedblockId := -1
  currentBlockOffset := 0
  totalBytesReceived := 0

section Handler
variable (doc : Document)

/-- `qm_iot_streams_recviced_datablock`: a payload that does not fit the buffer is an error. -/
def recvicedDatablock (block : Option Block) : Option Block :=
  block.filter fun block => decide (block.payload.length ≤ streamsBlockSize)

/-- `ota_progress_data_match`. -/
def progressDataMatch (block : Block) (lastReceivedblockId : Int) : Bool :=
  if block.fileId < 0 ∨ block.blockId < 0 ∨ block.blockSize < 0 then false
  else if block.fileId ≠ doc.fileId then false
  else if block.blockSize > streamsBlockSize then false
  else if block.blockId ≤ lastReceivedblockId then false
  else true

/-- `QM_IOT_OTA_EVENT_DATA_INSTALLING`; the length is handed on as a `uint16_t`. -/
def dataInstalling (data : Bytes) : List Action :=
  let data := data.take (data.length % 65536)
  [.otaWrite data, .signatureUpdate data]

/-- The block asked for, which `qm_iot_steams_create_request` takes as a `uint16_t`. -/
def Handle.blockOffset (h : Handle) : Nat := h.currentBlockOffset % 2 ^ 16

def Handle.progress (h : Handle) : Nat := h.totalBytesReceived * 100 % 2 ^ 32 / doc.fileSize % 2 ^ 16

def request (h : Handle) : List Action :=
  if h.totalBytesReceived < doc.fileSize then [.request h.blockOffset] else []

/-- The lines from `__next` on. -/
def next (h : Handle) : List Action := request doc h ++ [.progress (h.progress doc)]

def take (h : Handle) (block : Block) : Handle where
  lastReceivedblockId := block.blockId
  currentBlockOffset := (h.currentBlockOffset + 1) % 2 ^ 32
  totalBytesReceived := (h.totalBytesReceived + block.payload.length) % 2 ^ 32

/-- `qm_iot_ota_update_progress_handler`. -/
def updateProgressHandler (h : Handle) (block : Option Block) : Handle × List Action :=
  if doc.fileSize = 0 then (h, [])
  else
    match recvicedDatablock block with
    | none => (h, next doc h)
    | some block =>
      if progressDataMatch doc block h.lastReceivedblockId then
        (take h block, dataInstalling block.payload ++ next doc (take h block))
      else (h, next doc h)

def step (h : Handle) : Event → Handle × List Action
  | .message block => updateProgressHandler doc h block
  | .timeout left => (h, if left then request doc h else [.failed])

def machine : Machine Handle Event (List Action) where
  step h e := some (step doc h e)

end Handler

/-! ### What is written -/

def Action.written : Action → Bytes
  | .otaWrite data => data
  | _ => []

def Action.signed : Action → Bytes
  | .signatureUpdate data => data
  | _ => []

abbrev Trace := List (Event × List Action)

/-- The bytes passed to `qm_ota_write`. -/
def written (trace : Trace) : Bytes := trace.flatMap fun entry => entry.2.flatMap Action.written

def signed (trace : Trace) : Bytes := trace.flatMap fun entry => entry.2.flatMap Action.signed

def Genuine (doc : Document) (file : List Bytes) : Event → Prop
  | .message (some block) => block.fileId = doc.fileId → 0 ≤ block.blockId → file[block.blockId.toNat]? = some block.payload
  | _ => True

def InTurn (doc : Document) (h : Handle) : Event → Prop
  | .message (some block) => block.fileId = doc.fileId → block.blockId ≤ h.currentBlockOffset
  | _ => True

instance (doc : Document) (file : List Bytes) : DecidablePred (Genuine doc file)
  | .message (some block) => inferInstanceAs (Decidable (block.fileId = doc.fileId → 0 ≤ block.blockId →
      file[block.blockId.toNat]? = some block.payload))
  | .message none => isTrue trivial
  | .timeout _ => isTrue trivial

instance (doc : Document) (h : Handle) : DecidablePred (InTurn doc h)
  | .message (some block) => inferInstanceAs (Decidable (block.fileId = doc.fileId → block.blockId ≤ h.currentBlockOffset))
  | .message none => isTrue trivial
  | .timeout _ => isTrue trivial

/-- The first blocks of the file have been taken, and no others. -/
structure Inv (file : List Bytes) (trace : Trace) (h : Handle) : Prop where
  last : h.lastReceivedblockId = (h.currentBlockOffset : Int) - 1
  small : h.currentBlockOffset ≤ 2 ^ 31
  total : h.totalBytesReceived = (file.take h.currentBlockOffset).flatten.length
  written : written trace = (file.take h.currentBlockOffset).flatten
  signed : signed trace = (file.take h.currentBlockOffset).flatten

section Steps
variable {doc : Document} {file : List Bytes} {trace : Trace} {h : Handle} {e : Event}

theorem inv_start (file : List Bytes) : Inv file [] start := ⟨rfl, by decide, rfl, rfl, rfl⟩

theorem next_quiet (doc : Document) (h : Handle) :
    (next doc h).flatMap Action.written = [] ∧ (next doc h).flatMap Action.signed = [] := by
  rw [next, request]
  split <;> exact ⟨rfl, rfl⟩

theorem dataInstalling_eq {data : Bytes} (h : data.length ≤ streamsBlockSize) :
    dataInstalling data = [.otaWrite data, .signatureUpdate data] := by
  have hmod : data.length % 65536 = data.length := Nat.mod_eq_of_lt (Nat.lt_of_le_of_lt h (by decide))
  simp only [dataInstalling, hmod, take_length]

theorem progressDataMatch_eq_true {block : Block} {last : Int} (hm : progressDataMatch doc block last = true) :
    block.fileId = doc.fileId ∧ 0 ≤ block.blockId ∧ last < block.blockId := by
  rw [progressDataMatch] at hm
  split at hm
  · cases hm
  · split at hm
    · cases hm
    · split at hm
      · cases hm
      · split at hm
        · cases hm
        · exact ⟨by omega, by omega, by omega⟩

/-- A step writes nothing and stays where it is, or it takes a block and writes it. -/
inductive Effect (doc : Document) (h : Handle) : Event → Handle → List Action → Prop
  | stay {e : Event} {actions : List Action} (hw : actions.flatMap Action.written = [])
      (hs : actions.flatMap Action.signed = []) : Effect doc h e h actions
  | take {block : Block} {actions : List Action} (hid : block.fileId = doc.fileId) (hpos : 0 ≤ block.blockId)
      (hnew : h.lastReceivedblockId < block.blockId) (hw : actions.flatMap Action.written = block.payload)
      (hs : actions.flatMap Action.signed = block.payload) :
      Effect doc h (.message (some block)) (take h block) actions

theorem step_effect (doc : Document) (h : Handle) (e : Event) : Effect doc h e (step doc h e).1 (step doc h e).2 := by
  have hquiet := next_quiet doc
  cases e with
  | timeout left =>
    refine .stay ?_ ?_
    all_goals
      cases left
      · rfl
      · simp only [step, request, if_true]
        split <;> rfl
  | message block =>
    rw [step, updateProgressHandler]
    split
    · exact .stay rfl rfl
    · split
      · exact .stay (hquiet h).1 (hquiet h).2
      · rename_i block' hrec
        obtain ⟨rfl, hlen⟩ := Option.filter_eq_some_iff.mp hrec
        split
        · rename_i hmatch
          obtain ⟨hid, hpos, hnew⟩ := progressDataMatch_eq_true hmatch
          obtain ⟨hw, hs⟩ := hquiet (take h block')
          refine .take hid hpos hnew ?_ ?_
          · rw [dataInstalling_eq (of_decide_eq_true hlen), flatMap_append, hw]
            simp [Action.written]
          · rw [dataInstalling_eq (of_decide_eq_true hlen), flatMap_append, hs]
            simp [Action.signed]
        · exact .stay (hquiet h).1 (hquiet h).2

/-- **A block that comes in turn is the next one of the file.** -/
theorem inv_step (hfile : file.flatten.length = doc.fileSize) (hinv : Inv file trace h) (hg : Genuine doc file e)
    (ht : InTurn doc h e) {h' : Handle} {actions : List Action} (heff : Effect doc h e h' actions) :
    Inv file (trace ++ [(e, actions)]) h' := by
  have hwritten : written (trace ++ [(e, actions)]) = written trace ++ actions.flatMap Action.written := by
    simp [written]
  have hsigned : signed (trace ++ [(e, actions)]) = signed trace ++ actions.flatMap Action.signed := by
    simp [signed]
  cases heff with
  | stay hw hs =>
    rw [hw, append_nil] at hwritten
    rw [hs, append_nil] at hsigned
    exact ⟨hinv.last, hinv.small, hinv.total, hwritten.trans hinv.written, hsigned.trans hinv.signed⟩
  | @take block _ hid hpos hnew hw hs =>
    have hturn := ht hid
    have hint := block.int
    have hlast := hinv.last
    have hblock : block.blockId = h.currentBlockOffset := by omega
    have hget := hg hid hpos
    rw [hblock, Int.toNat_natCast] at hget
    have htake : file.take (h.currentBlockOffset + 1) = file.take h.currentBlockOffset ++ [block.payload] := by
      rw [take_add_one, hget]
      rfl
    have hoffset : (take h block).currentBlockOffset = h.currentBlockOffset + 1 := Nat.mod_eq_of_lt (by omega)
    have hflat : (file.take (h.currentBlockOffset + 1)).flatten =
        (file.take h.currentBlockOffset).flatten ++ block.payload := by
      rw [htake, flatten_append, flatten_singleton]
    -- What has been taken is a part of the file, whose size is a `uint32_t`.
    have hpart : (file.take (h.currentBlockOffset + 1)).flatten.length ≤ doc.fileSize := by
      have hsplit := congrArg (fun blocks => blocks.flatten.length)
        (take_append_drop (h.currentBlockOffset + 1) file)
      simp only [flatten_append, length_append] at hsplit
      omega
    have huint := doc.uint
    refine ⟨?_, ?_, ?_, ?_, ?_⟩
    · show block.blockId = _
      omega
    · omega
    · rw [hoffset, hflat, length_append, ← hinv.total]
      rw [hflat, length_append, ← hinv.total] at hpart
      exact Nat.mod_eq_of_lt (by omega)
    · rw [hoffset, hwritten, hw, hinv.written, hflat]
    · rw [hoffset, hsigned, hs, hinv.signed, hflat]

/-- **The download keeps the order.** Whatever messages of the file come, once, twice, late or
damaged, as long as none is ahead of the next block: what is written and what is signed are the
first blocks of the file, as many as have been counted, and their bytes are counted. -/
theorem download_in_order (doc : Document) (file : List Bytes) (hfile : file.flatten.length = doc.fileSize)
    (events : List Event) (hg : ∀ e ∈ events, Genuine doc file e)
    (hm : (machine doc).Meets (InTurn doc) start events) :
    ∃ h trace, (machine doc).run start events = some (h, trace) ∧
      written trace = (file.take h.currentBlockOffset).flatten ∧
      signed trace = (file.take h.currentBlockOffset).flatten ∧
      h.totalBytesReceived = (file.take h.currentBlockOffset).flatten.length := by
  obtain ⟨h, trace, hr, hinv⟩ := (machine doc).run_total _ (Inv file)
    (fun past h e hinv hc => ⟨_, _, rfl, inv_step hfile hinv hc.1 hc.2 (step_effect doc h e)⟩)
    (inv_start file) ((machine doc).meets_and hg hm)
  exact ⟨h, trace, hr, hinv.written, hinv.signed, hinv.total⟩

end Steps

def threeBlocks : List Bytes := [[1, 2], [3, 4], [5]]

def threeBlocksDoc : Document := ⟨7, 5, by decide⟩

def blockMessage (n : Fin 3) : Event :=
  .message (some ⟨7, (n : Nat), 2, threeBlocks.getD n [], by omega⟩)

theorem download_in_order_three :
    ∃ h trace, (machine threeBlocksDoc).run start
        [blockMessage 0, .message none, blockMessage 0, .timeout true, blockMessage 1, blockMessage 0, blockMessage 2] =
          some (h, trace) ∧
      written trace = (threeBlocks.take h.currentBlockOffset).flatten ∧
      signed trace = (threeBlocks.take h.currentBlockOffset).flatten ∧
      h.totalBytesReceived = (threeBlocks.take h.currentBlockOffset).flatten.length :=
  download_in_order threeBlocksDoc threeBlocks (by decide)
    [blockMessage 0, .message none, blockMessage 0, .timeout true, blockMessage 1, blockMessage 0, blockMessage 2]
    (by decide +kernel) (by decide +kernel)

/-- A block that is ahead of its turn is written in the place of the one that is missing. -/
theorem block_ahead_is_written :
    (∀ e ∈ [blockMessage 0, blockMessage 2], Genuine threeBlocksDoc threeBlocks e) ∧
    ((machine threeBlocksDoc).run start [blockMessage 0, blockMessage 2]).map (fun r =>
      (r.1.currentBlockOffset, written r.2, (threeBlocks.take r.1.currentBlockOffset).flatten)) =
        some (2, [1, 2, 5], [1, 2, 3, 4]) := by
  decide +kernel

end Qumios.Cloud
