import Qumios.Subdev.Handlers

/-! What the handlers of sub-device messages do with their blocks.

From the entry on a handler frees what it has allocated, for every message and every failure of an allocation
(`body_spec`). In front of it every error is a call through a null pointer, since the exit asks the entry
(`handler_clean_iff`). -/
namespace Qumios.Subdev
open List

open LittleEndian

/-! ### The blocks of a handler -/

def Holding (w : World) (block : Option Nat) (w' : World) : Prop :=
  w'.heap.live = (block.map fun number => (number, Block.devices)).toList ++ w.heap.live

theorem malloc_cases (w : World) (block : Block) :
    (w.fails w.asked = true ∧ ∃ w', w.malloc block = (none, w') ∧ w'.heap = w.heap ∧ w'.events = w.events) ∨
      (w.fails w.asked = false ∧ ∃ w', w.malloc block = (some w.heap.next, w') ∧
        w'.heap.live = (w.heap.next, block) :: w.heap.live ∧ w'.events = w.events) := by
  cases hfails : w.fails w.asked with
  | true =>
    refine .inl ⟨rfl, { w with asked := w.asked + 1 }, ?_, rfl, rfl⟩
    rw [World.malloc, hfails, if_pos rfl]
  | false =>
    refine .inr ⟨rfl, { w with asked := w.asked + 1, heap := w.heap.malloc block }, ?_, rfl, rfl⟩
    rw [World.malloc, hfails, if_neg Bool.false_ne_true]

variable {Json : Type} [Cjson Json] {rest : List (Nat × Block)} {w : World} {α : Type} {json : Json}
  {recvType : RecvType} {head : Head Json}

theorem free_last {number : Nat} {block : Block} (hlive : w.heap.live = (number, block) :: rest) :
    ∃ w', w.free number = .ok w' ∧ w'.heap.live = rest ∧ w'.events = w.events := by
  obtain ⟨heap, hfree, hrest⟩ := Ledger.free_head hlive
  exact ⟨{ w with heap := heap }, by rw [World.free, hfree], hrest, rfl⟩

/-- An unpack: it leaves the array as the one block more, tells nothing to the outside, and what it returns is
`Result`. -/
structure Unpacks {α : Type} (Result : α → Prop) (w : World) (u : Unpacked α × World) : Prop where
  holding : Holding w u.1.block u.2
  events : u.2.events = w.events
  result : ∀ content, u.1.result = .ok content → Result content

variable {Result : α → Prop} {u : Unpacked α × World} {type : Int} {root : Nat}

theorem Unpacks.none {result : Except Errno α} (hresult : ∀ content, result = .ok content → Result content) :
    Unpacks Result w (⟨none, result⟩, w) :=
  ⟨rfl, rfl, hresult⟩

theorem Unpacks.map {β : Type} {Result' : β → Prop} (h : Unpacks Result w u) {f : α → β}
    (hf : ∀ content, Result content → Result' (f content)) :
    Unpacks Result' w (⟨u.1.block, u.1.result.map f⟩, u.2) := by
  refine ⟨h.holding, h.events, fun content hcontent => ?_⟩
  cases hresult : u.1.result with
  | error e =>
    rw [hresult] at hcontent
    cases hcontent
  | ok before =>
    rw [hresult] at hcontent
    obtain rfl : f before = content := Except.ok.inj hcontent
    exact hf before (h.result before hresult)

variable (h : Handler) (handler : Entry) (packet : Packet) (unpack : Json → Except Errno α)

theorem arrayUnpack_spec {Item : Type} (unpack : Item → Except Errno α) (items : List Item) (w : World) :
    Unpacks (fun elements => unpackLoop unpack items = .ok elements) w (arrayUnpack unpack items w) := by
  obtain ⟨-, w', hmalloc, hheap, hevents⟩ | ⟨-, w', hmalloc, hlive, hevents⟩ := malloc_cases w .devices
  · rw [arrayUnpack, hmalloc]
    exact ⟨congrArg Ledger.live hheap, hevents, nofun⟩
  · rw [arrayUnpack, hmalloc]
    exact ⟨hlive, hevents, fun _ h => h⟩

theorem topoGetHead_devices {root devices : Json} {mesh : Memory} (h : topoGetHead type root = .ok (mesh, devices)) :
    getObjectItem root .devices = some devices := by
  rw [topoGetHead] at h
  split at h
  · exact nomatch h
  · simp only [bind_eq_ok_iff] at h
    obtain ⟨_, -, _, -, _, -, _, -, _, -, _, hdevices, hpair⟩ := h
    obtain ⟨-, rfl⟩ := Prod.mk.inj (Except.ok.inj hpair)
    exact objectGet_eq_ok_iff.mp hdevices

theorem topoGetBleMeshUnpack_spec (type : Int) (root : Json) (w : World) :
    Unpacks (fun content => ∀ devices, getObjectItem root .devices = some devices →
        unpackLoop devUnpack (children devices) = .ok content.2) w
      (topoGetBleMeshUnpack type root w) := by
  rw [topoGetBleMeshUnpack]
  cases hhead : topoGetHead type root with
  | error e => exact .none nofun
  | ok found =>
    obtain ⟨mesh, devices⟩ := found
    have hdevices := topoGetHead_devices hhead
    have hsame {other : Json} (hother : getObjectItem root .devices = some other) : other = devices :=
      Option.some.inj (hother.symm.trans hdevices)
    dsimp only
    split
    case isTrue hempty =>
      refine .none fun content hcontent other hother => ?_
      rw [hsame hother, length_eq_zero_iff.mp hempty, ← Except.ok.inj hcontent]
      rfl
    case isFalse =>
      exact (arrayUnpack_spec devUnpack (children devices) w).map fun _ h other hother => hsame hother ▸ h

theorem notifyUnpack_spec (items : Except Errno Json) (w : World) :
    Unpacks (fun content => ∀ devices, items = .ok devices → unpackLoop unpack (children devices) = .ok content.2) w
      (notifyUnpack unpack items w) := by
  cases items with
  | error e => exact .none nofun
  | ok devices =>
    rw [notifyUnpack]
    split
    · exact .none nofun
    · exact (arrayUnpack_spec unpack (children devices) w).map fun _ h _ hdevices => Except.ok.inj hdevices ▸ h

/-! ### Telling -/

/-- What a handler does between the unpack and its exit keeps the blocks, and tells the receiver of a packet only. -/
structure Tells (packet : Packet) (w : World) (r : Except Fault World) : Prop where
  clean : ∃ w', r = .ok w' ∧ w'.heap.live = w.heap.live
  received : ∀ w', r = .ok w' → ∀ other, Event.received other ∈ w'.events → Event.received other ∈ w.events ∨ other = packet

theorem receive_heap (w : World) (packet : Packet) : (w.receive packet).heap = w.heap := by
  rw [World.receive]
  split <;> rfl

theorem mem_receive {packet other : Packet} (h : Event.received other ∈ (w.receive packet).events) :
    Event.received other ∈ w.events ∨ other = packet := by
  rw [World.receive] at h
  split at h
  · rcases mem_append.mp h with hold | hnew
    · exact .inl hold
    · exact .inr (Event.received.inj (mem_singleton.mp hnew))
  · exact .inl h

theorem subdevGenericReply_spec (method : String) (msgId : Int) (w : World) :
    ∃ w', subdevGenericReply method msgId w = .ok w' ∧ w'.heap.live = w.heap.live ∧
      ∀ packet, Event.received packet ∈ w'.events → Event.received packet ∈ w.events := by
  obtain ⟨-, w', hmalloc, hheap, hevents⟩ | ⟨-, w', hmalloc, hlive, hevents⟩ := malloc_cases w .payload
  · exact ⟨w', by rw [subdevGenericReply, hmalloc], congrArg Ledger.live hheap, fun _ h => hevents ▸ h⟩
  · have hpublished : (w'.publish method msgId).heap.live = (w.heap.next, .payload) :: w.heap.live := hlive
    obtain ⟨w'', hfree, hrest, hsame⟩ := free_last hpublished
    refine ⟨w'', by rw [subdevGenericReply, hmalloc]; exact hfree, hrest, fun packet h => ?_⟩
    rw [hsame, World.publish, hevents] at h
    rcases mem_append.mp h with hold | hnew
    · exact hold
    · cases mem_singleton.mp hnew

theorem Tells.receive (w : World) : Tells packet w (.ok (w.receive packet)) where
  clean := ⟨_, rfl, congrArg Ledger.live (receive_heap w packet)⟩
  received _ hw' _ h := mem_receive ((Except.ok.inj hw').symm ▸ h)

theorem Tells.receive_reply (w : World) (method : String) (msgId : Int) :
    Tells packet w (subdevGenericReply method msgId (w.receive packet)) := by
  obtain ⟨w', hreply, hlive, hevents⟩ := subdevGenericReply_spec method msgId (w.receive packet)
  rw [hreply]
  refine ⟨⟨w', rfl, hlive.trans (congrArg Ledger.live (receive_heap w packet))⟩, fun w'' hw'' other h => ?_⟩
  exact mem_receive (hevents other ((Except.ok.inj hw'').symm ▸ h))

theorem Tells.reply_receive (w : World) (method : String) (msgId : Int) :
    Tells packet w (do
      let w ← subdevGenericReply method msgId w
      pure (w.receive packet)) := by
  obtain ⟨w', hreply, hlive, hevents⟩ := subdevGenericReply_spec method msgId w
  rw [hreply]
  refine ⟨⟨_, rfl, (congrArg Ledger.live (receive_heap w' packet)).trans hlive⟩, fun w'' hw'' other h => ?_⟩
  rcases mem_receive ((Except.ok.inj hw'').symm ▸ h : Event.received other ∈ (w'.receive packet).events) with hold | hnew
  · exact .inl (hevents other hold)
  · exact .inr hnew

/-! ### From the entry to the exit -/

theorem exit_spec {w' : World} {block : Option Nat}
    (hholding : w'.heap.live = (block.map fun number => (number, Block.devices)).toList ++ (root, .root) :: rest) :
    ∃ w'', exit (some handler) block root w' = .ok w'' ∧ w''.heap.live = rest ∧ w''.events = w'.events := by
  cases block with
  | none => exact free_last hholding
  | some number =>
    obtain ⟨w₁, hfree, hlive, hevents⟩ := free_last hholding
    obtain ⟨w₂, hfree', hlive', hevents'⟩ := free_last hlive
    refine ⟨w₂, ?_, hlive', hevents'.trans hevents⟩
    rw [exit, hfree]
    exact hfree'

/-- **From the entry on** a handler frees what it has allocated, whatever the message, and tells the receiver of nothing
but what it has unpacked. -/
theorem conclude_spec {packet : α → Packet} {tell : α → World → Except Fault World} (hu : Unpacks Result w u)
    (hroot : w.heap.live = (root, .root) :: rest) (htell : ∀ content w, Tells (packet content) w (tell content w)) :
    ∃ w', conclude handler u root tell = .ok w' ∧ w'.heap.live = rest ∧
      ∀ other, Event.received other ∈ w'.events →
        Event.received other ∈ w.events ∨ ∃ content, Result content ∧ other = packet content := by
  obtain ⟨⟨block, result⟩, w₁⟩ := u
  have hholding : w₁.heap.live = (block.map fun number => (number, Block.devices)).toList ++ (root, .root) :: rest :=
    hroot ▸ hu.holding
  have hevents : w₁.events = w.events := hu.events
  cases result with
  | error e =>
    obtain ⟨w', hexit, hlive, hsame⟩ := exit_spec handler hholding
    exact ⟨w', hexit, hlive, fun other h => .inl (hevents ▸ hsame ▸ h)⟩
  | ok content =>
    obtain ⟨⟨w₂, htold, hlive₂⟩, hreceived⟩ := htell content w₁
    obtain ⟨w', hexit, hlive, hsame⟩ := exit_spec handler (hlive₂.trans hholding)
    refine ⟨w', ?_, hlive, fun other h => ?_⟩
    · rw [conclude, htold]
      exact hexit
    · rcases hreceived w₂ htold other (hsame ▸ h) with hold | hnew
      · exact .inl (hevents ▸ hold)
      · exact .inr ⟨content, hu.result content rfl, hnew⟩

/-- The records of the devices that a packet brings, as many as `dev_num` says. -/
def Packet.devices : Packet → List MeshDev
  | topoReply _ _ _ mesh devs => devs.take (load 2 mesh 34)
  | addNotify _ _ devNum devs => devs.take devNum
  | _ => []

def Brings (params : Json) (packet : Packet) : Prop :=
  packet.devices = [] ∨ ∀ devices, getObjectItem params .devices = some devices →
    ∃ devs num, unpackLoop devUnpack (children devices) = .ok devs ∧ packet.devices = devs.take num

theorem body_spec (head : Head Json) (hroot : w.heap.live = (root, .root) :: rest) :
    ∃ w', h.body root w head = .ok w' ∧ w'.heap.live = rest ∧
      ∀ other, Event.received other ∈ w'.events → Event.received other ∈ w.events ∨ Brings head.params other := by
  cases h with
  | listGetReply =>
    obtain ⟨w', hbody, hlive, hreceived⟩ := conclude_spec head.handler
      (topoGetBleMeshUnpack_spec head.type head.params w) hroot
      fun content w => Tells.receive (.topoReply head.code head.msgId head.type content.1 content.2) w
    refine ⟨w', hbody, hlive, fun other hother => (hreceived other hother).imp_right ?_⟩
    rintro ⟨content, hresult, rfl⟩
    exact .inr fun devices hdevices => ⟨content.2, _, hresult devices hdevices, rfl⟩
  | addNotify =>
    obtain ⟨w', hbody, hlive, hreceived⟩ := conclude_spec head.handler
      (notifyUnpack_spec devUnpack (objectGet head.params .devices) w) hroot
      fun content w => Tells.receive_reply (.addNotify head.msgId head.type content.1 content.2) w
        "addSubdevNotifyReply" head.msgId
    refine ⟨w', hbody, hlive, fun other hother => (hreceived other hother).imp_right ?_⟩
    rintro ⟨content, hresult, rfl⟩
    exact .inr fun devices hdevices => ⟨content.2, _, hresult devices (objectGet_eq_ok_iff.mpr hdevices), rfl⟩
  | delNotify =>
    obtain ⟨w', hbody, hlive, hreceived⟩ := conclude_spec head.handler
      (notifyUnpack_spec _ (objectGet head.params .devices) w) hroot
      fun content w => Tells.reply_receive (.delNotify head.msgId head.type content.1 content.2) w
        "delSubdevNotifyReply" head.msgId
    refine ⟨w', hbody, hlive, fun other hother => (hreceived other hother).imp_right ?_⟩
    rintro ⟨content, -, rfl⟩
    exact .inl rfl
  | stateNotify =>
    obtain ⟨w', hbody, hlive, hreceived⟩ := conclude_spec head.handler
      (notifyUnpack_spec _ (.ok head.params) w) hroot
      fun content w => Tells.receive_reply (.stateNotify head.msgId content.1 content.2) w
        "subdevStateNotifyReply" head.msgId
    refine ⟨w', hbody, hlive, fun other hother => (hreceived other hother).imp_right ?_⟩
    rintro ⟨content, -, rfl⟩
    exact .inl rfl

/-! ### Robustness -/

def OfMesh (json : Json) : Prop :=
  ∃ params item, getObjectItem json .params = some params ∧ getObjectItem params .devType = some item ∧
    valueint item = typeBleMesh

def Handler.Complete : Handler → Json → Prop
  | listGetReply, json => (getObjectItem json .id).isSome ∧ (getObjectItem json .code).isSome ∧ OfMesh json
  | addNotify, json | delNotify, json => (getObjectItem json .id).isSome ∧ OfMesh json
  | stateNotify, json => (getObjectItem json .id).isSome ∧ (getObjectItem json .params).isSome

theorem isSome_of_cjsonIntGet {key : Key} {value : Int} (h : cjsonIntGet json key = .ok value) :
    (getObjectItem json key).isSome := by
  obtain ⟨item, hitem, -⟩ := cjsonIntGet_eq_ok_iff.mp h
  rw [hitem]
  rfl

theorem cjsonIntGet_of_isSome {key : Key} (h : (getObjectItem json key).isSome) :
    ∃ value, cjsonIntGet json key = .ok value := by
  obtain ⟨item, hitem⟩ := Option.isSome_iff_exists.mp h
  exact ⟨valueint item, cjsonIntGet_eq_ok_iff.mpr ⟨item, hitem, rfl⟩⟩

/-- The table has an entry for the mesh devices in each of three messages, and no other for these. -/
theorem subdevHandlerGet_mesh {entry : Entry} (h : subdevHandlerGet recvType type = .ok entry)
    (hnotify : recvType ≠ .stateNotify) : type = typeBleMesh := by
  rw [subdevHandlerGet] at h
  split at h
  case h_1 => cases h
  case h_2 e hfind =>
    have hkey := find?_some hfind
    have hmem := mem_of_find?_eq_some hfind
    simp only [decide_eq_true_eq] at hkey
    simp only [subdevHandlers, mem_cons, not_mem_nil, or_false] at hmem
    obtain ⟨hrecv, htype⟩ := hkey
    rcases hmem with rfl | rfl | rfl | rfl
    · exact htype.symm
    · exact htype.symm
    · exact htype.symm
    · exact absurd hrecv.symm hnotify

/-! What each head has found when it has found the entry. -/

theorem listGetReplyHead_eq_ok (h : listGetReplyHead json = .ok head) :
    cjsonIntGet json .id = .ok head.msgId ∧ cjsonIntGet json .code = .ok head.code ∧
      getObjectItem json .params = some head.params ∧ cjsonIntGet head.params .devType = .ok head.type ∧
      subdevHandlerGet .topoGetReply head.type = .ok head.handler := by
  simp only [listGetReplyHead, bind_eq_ok_iff] at h
  obtain ⟨msgId, hid, code, hcode, params, hparams, type, htype, entry, hfound, hhead⟩ := h
  obtain rfl : ⟨entry, params, msgId, code, type⟩ = head := Except.ok.inj hhead
  exact ⟨hid, hcode, objectGet_eq_ok_iff.mp hparams, htype, hfound⟩

theorem notifyHead_eq_ok (h : notifyHead recvType json = .ok head) :
    cjsonIntGet json .id = .ok head.msgId ∧ getObjectItem json .params = some head.params ∧
      cjsonIntGet head.params .devType = .ok head.type ∧ subdevHandlerGet recvType head.type = .ok head.handler := by
  simp only [notifyHead, bind_eq_ok_iff] at h
  obtain ⟨msgId, hid, params, hparams, type, htype, h⟩ := h
  split at h
  · cases h
  · simp only [bind_eq_ok_iff] at h
    obtain ⟨entry, hfound, hhead⟩ := h
    obtain rfl : ⟨entry, params, msgId, 0, type⟩ = head := Except.ok.inj hhead
    exact ⟨hid, objectGet_eq_ok_iff.mp hparams, htype, hfound⟩

theorem stateNotifyHead_eq_ok (h : stateNotifyHead json = .ok head) :
    cjsonIntGet json .id = .ok head.msgId ∧ getObjectItem json .params = some head.params := by
  simp only [stateNotifyHead, bind_eq_ok_iff] at h
  obtain ⟨msgId, hid, params, hparams, entry, -, hhead⟩ := h
  obtain rfl : ⟨entry, params, msgId, 0, typeNone⟩ = head := Except.ok.inj hhead
  exact ⟨hid, objectGet_eq_ok_iff.mp hparams⟩

theorem head_params {h : Handler} (hhead : h.head json = .ok head) : getObjectItem json .params = some head.params := by
  cases h with
  | listGetReply => exact (listGetReplyHead_eq_ok hhead).2.2.1
  | addNotify => exact (notifyHead_eq_ok hhead).2.1
  | delNotify => exact (notifyHead_eq_ok hhead).2.1
  | stateNotify => exact (stateNotifyHead_eq_ok hhead).2

theorem ofMesh_of_found {params : Json} {entry : Entry} (hparams : getObjectItem json .params = some params)
    (htype : cjsonIntGet params .devType = .ok type) (hfound : subdevHandlerGet recvType type = .ok entry)
    (hnotify : recvType ≠ .stateNotify) : OfMesh json := by
  obtain ⟨item, hitem, hvalue⟩ := cjsonIntGet_eq_ok_iff.mp htype
  exact ⟨params, item, hparams, hitem, hvalue.trans (subdevHandlerGet_mesh hfound hnotify)⟩

theorem listGetReplyHead_ok_iff :
    (∃ head, listGetReplyHead json = .ok head) ↔
      (getObjectItem json .id).isSome ∧ (getObjectItem json .code).isSome ∧ OfMesh json := by
  constructor
  · rintro ⟨head, h⟩
    obtain ⟨hid, hcode, hparams, htype, hfound⟩ := listGetReplyHead_eq_ok h
    exact ⟨isSome_of_cjsonIntGet hid, isSome_of_cjsonIntGet hcode, ofMesh_of_found hparams htype hfound (by decide)⟩
  · rintro ⟨hid, hcode, params, item, hparams, hitem, hvalue⟩
    obtain ⟨msgId, hmsgId⟩ := cjsonIntGet_of_isSome hid
    obtain ⟨code, hcode⟩ := cjsonIntGet_of_isSome hcode
    have htype : cjsonIntGet params .devType = .ok typeBleMesh := cjsonIntGet_eq_ok_iff.mpr ⟨item, hitem, hvalue⟩
    refine ⟨⟨⟨.topoGetReply, typeBleMesh⟩, params, msgId, code, typeBleMesh⟩, ?_⟩
    simp only [listGetReplyHead, bind_eq_ok_iff]
    exact ⟨msgId, hmsgId, code, hcode, params, objectGet_eq_ok_iff.mpr hparams, typeBleMesh, htype, _, rfl, rfl⟩

theorem notifyHead_ok_iff (hnotify : recvType ≠ .stateNotify)
    (hentry : ∃ entry, subdevHandlerGet recvType typeBleMesh = .ok entry) :
    (∃ head, notifyHead recvType json = .ok head) ↔ (getObjectItem json .id).isSome ∧ OfMesh json := by
  constructor
  · rintro ⟨head, h⟩
    obtain ⟨hid, hparams, htype, hfound⟩ := notifyHead_eq_ok h
    exact ⟨isSome_of_cjsonIntGet hid, ofMesh_of_found hparams htype hfound hnotify⟩
  · rintro ⟨hid, params, item, hparams, hitem, hvalue⟩
    obtain ⟨msgId, hmsgId⟩ := cjsonIntGet_of_isSome hid
    obtain ⟨entry, hfound⟩ := hentry
    have htype : cjsonIntGet params .devType = .ok typeBleMesh := cjsonIntGet_eq_ok_iff.mpr ⟨item, hitem, hvalue⟩
    refine ⟨⟨entry, params, msgId, 0, typeBleMesh⟩, ?_⟩
    simp only [notifyHead, bind_eq_ok_iff]
    refine ⟨msgId, hmsgId, params, objectGet_eq_ok_iff.mpr hparams, typeBleMesh, htype, ?_⟩
    exact bind_eq_ok_iff.mpr ⟨entry, hfound, rfl⟩

theorem stateNotifyHead_ok_iff :
    (∃ head, stateNotifyHead json = .ok head) ↔
      (getObjectItem json .id).isSome ∧ (getObjectItem json .params).isSome := by
  constructor
  · rintro ⟨head, h⟩
    obtain ⟨hid, hparams⟩ := stateNotifyHead_eq_ok h
    exact ⟨isSome_of_cjsonIntGet hid, Option.isSome_iff_exists.mpr ⟨head.params, hparams⟩⟩
  · rintro ⟨hid, hparams⟩
    obtain ⟨msgId, hmsgId⟩ := cjsonIntGet_of_isSome hid
    obtain ⟨params, hparams⟩ := Option.isSome_iff_exists.mp hparams
    refine ⟨⟨⟨.stateNotify, typeNone⟩, params, msgId, 0, typeNone⟩, ?_⟩
    simp only [stateNotifyHead, bind_eq_ok_iff]
    exact ⟨msgId, hmsgId, params, objectGet_eq_ok_iff.mpr hparams, _, rfl, rfl⟩

theorem head_ok_iff (json : Json) : (∃ head, h.head json = .ok head) ↔ h.Complete json := by
  cases h with
  | listGetReply => exact listGetReplyHead_ok_iff
  | addNotify => exact notifyHead_ok_iff (by decide) ⟨⟨.topoAddNotify, typeBleMesh⟩, rfl⟩
  | delNotify => exact notifyHead_ok_iff (by decide) ⟨⟨.topoDelNotify, typeBleMesh⟩, rfl⟩
  | stateNotify => exact stateNotifyHead_ok_iff

def Arrives (m : Publication Json) (w : World) (json : Json) : Prop :=
  m.pub = true ∧ m.json = some json ∧ w.fails w.asked = false

/-- A handler ends before it has allocated anything, or it has the tree. -/
theorem parsed_cases {Item : Type} (m : Publication Item) (w : World)
    (handle : Nat → Item → World → Except Fault World) :
    ((¬ ∃ json, Arrives m w json) ∧ ∃ w', parsed m w handle = .ok w' ∧ w'.heap = w.heap ∧ w'.events = w.events) ∨
      ∃ json w', Arrives m w json ∧ parsed m w handle = handle w.heap.next json w' ∧
        w'.heap.live = (w.heap.next, .root) :: w.heap.live ∧ w'.events = w.events := by
  rw [parsed]
  by_cases hpub : m.pub = true
  · rw [if_pos hpub]
    cases hjson : m.json with
    | none =>
      have hnone : ¬ ∃ json, Arrives m w json := fun h => h.elim fun _ h => nomatch hjson.symm.trans h.2.1
      exact .inl ⟨hnone, w, rfl, rfl, rfl⟩
    | some json =>
      obtain ⟨hfails, w', hmalloc, hheap, hevents⟩ | ⟨hfails, w', hmalloc, hlive, hevents⟩ := malloc_cases w .root
      · have hnone : ¬ ∃ json, Arrives m w json := fun h => h.elim fun _ h => nomatch hfails.symm.trans h.2.2
        rw [hmalloc]
        exact .inl ⟨hnone, w', rfl, hheap, hevents⟩
      · rw [hmalloc]
        exact .inr ⟨json, w', ⟨hpub, hjson, hfails⟩, rfl, hlive, hevents⟩
  · rw [if_neg hpub]
    exact .inl ⟨fun h => h.elim fun _ h => hpub h.1, w, rfl, rfl, rfl⟩

/-- **Where the handlers are robust**: a handler comes to its end, with the blocks live that were live before it,
exactly if the message brings no tree or has the members that lead to the entry. -/
theorem handler_clean_iff (h : Handler) (m : Publication Json) (w : World) :
    (∃ w', h.run m w = .ok w' ∧ w'.heap.live = w.heap.live) ↔ ∀ json, Arrives m w json → h.Complete json := by
  rw [Handler.run_eq]
  obtain ⟨hnone, w', hparsed, hheap, -⟩ | ⟨json, w', harrives, hparsed, hlive, -⟩ :=
    parsed_cases m { w with events := [] } fun root json w => withHead (h.head json) root w (h.body root w)
  · rw [hparsed]
    exact ⟨fun _ json harrives => absurd ⟨json, harrives⟩ hnone, fun _ => ⟨w', rfl, congrArg Ledger.live hheap⟩⟩
  · rw [hparsed]
    constructor
    · rintro ⟨w'', hrun, -⟩ json' harrives'
      obtain rfl : json = json' := Option.some.inj (harrives.2.1.symm.trans harrives'.2.1)
      refine (head_ok_iff h json).mp ?_
      cases hhead : h.head json with
      | error e =>
        rw [hhead] at hrun
        exact nomatch (hrun : Except.error Fault.nullPointer = .ok w'')
      | ok head => exact ⟨head, rfl⟩
    · intro hcomplete
      obtain ⟨head, hhead⟩ := (head_ok_iff h json).mpr (hcomplete json harrives)
      rw [hhead]
      obtain ⟨w'', hbody, hrest, -⟩ := body_spec h head hlive
      exact ⟨w'', hbody, hrest⟩

/-- A notification without `params` leads to a call through the null pointer. -/
theorem handler_not_clean :
    Handler.addNotify.run (⟨true, some (.object [(.id, .number 7)])⟩ : Publication Tree)
        ⟨.empty, fun _ => false, 0, true, []⟩ =
        .error .nullPointer ∧
      ¬ ∀ (h : Handler) (m : Publication Tree) (w : World), ∃ w', h.run m w = .ok w' ∧ w'.heap.live = w.heap.live := by
  refine ⟨rfl, fun hclean => ?_⟩
  obtain ⟨w', hrun, -⟩ := hclean .addNotify ⟨true, some (.object [(.id, .number 7)])⟩ ⟨.empty, fun _ => false, 0, true, []⟩
  exact nomatch (hrun : Except.error Fault.nullPointer = .ok w')

end Qumios.Subdev
