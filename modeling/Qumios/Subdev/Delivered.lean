import Qumios.Subdev.Robust

/-! The devices that reach the receiver.

A packet brings the records that were unpacked from the devices of its message (`brings_of_received`), so what
is true of one device and its record is true of all that arrive (`devices_preserved_iff`). -/
namespace Qumios.Subdev
open List

open LittleEndian

variable {Json : Type} [Cjson Json]

def Lists (json : Json) (ds : List Members) : Prop :=
  ∃ params devices, getObjectItem json .params = some params ∧ getObjectItem params .devices = some devices ∧
    List.Forall₂ Describes (children devices) ds

/-- A packet that reaches the receiver was unpacked from the parameters of the message. -/
theorem brings_of_received {h : Handler} {m : Publication Json} {w w' : World} {packet : Packet}
    (hrun : h.run m w = .ok w') (hreceived : Event.received packet ∈ w'.events) :
    ∃ json params, m.json = some json ∧ getObjectItem json .params = some params ∧ Brings params packet := by
  rw [Handler.run_eq] at hrun
  obtain ⟨-, w₁, hparsed, -, hevents⟩ | ⟨json, w₁, harrives, hparsed, hlive, hevents⟩ :=
    parsed_cases m { w with events := [] } fun root json w => withHead (h.head json) root w (h.body root w)
  · obtain rfl : w₁ = w' := Except.ok.inj (hparsed.symm.trans hrun)
    rw [hevents] at hreceived
    cases hreceived
  · rw [hparsed] at hrun
    cases hhead : h.head json with
    | error e =>
      rw [hhead] at hrun
      exact nomatch (hrun : Except.error Fault.nullPointer = .ok w')
    | ok head =>
      rw [hhead] at hrun
      obtain ⟨w₂, hbody, -, hbrings⟩ := body_spec h head hlive
      obtain rfl : w₂ = w' := Except.ok.inj (hbody.symm.trans hrun)
      rcases hbrings packet hreceived with hold | hbrings
      · rw [hevents] at hold
        cases hold
      · exact ⟨json, head.params, harrives.2.1, head_params hhead, hbrings⟩

/-- The records of the devices, one by one. -/
theorem forall_preserves_iff {items : List Json} {devs : List MeshDev} {ds : List Members}
    (hunpack : List.Forall₂ (fun json dev => devUnpack json = .ok dev) items devs)
    (hint : Saturates Json) (hdescribes : List.Forall₂ Describes items ds) (hrange : ∀ d ∈ ds, d.InRange) (num : Nat) :
    List.Forall₂ Preserves (ds.take num) (devs.take num) ↔ ∀ d ∈ ds.take num, d.Plain := by
  induction hunpack generalizing ds num with
  | nil =>
    cases hdescribes
    simp
  | cons hdev _ ih =>
    cases hdescribes with
    | cons hd hds =>
      cases num with
      | zero => simp
      | succ num =>
        have hone := preserves_iff hint hd (hrange _ (mem_cons_self ..)) hdev
        have hrest := ih hds (fun d hmem => hrange d (mem_cons_of_mem _ hmem)) num
        rw [take_succ_cons, take_succ_cons, forall₂_cons, forall_mem_cons, hone, hrest]

/-- **The devices that reach the receiver**: of a message whose integers are in range, the devices hold what the message
says of them exactly if their members are plain. Of the library it needs that integers saturate. -/
theorem devices_preserved_iff {h : Handler} {m : Publication Json} {json : Json} {ds : List Members} {w w' : World}
    {packet : Packet} (hint : Saturates Json) (hjson : m.json = some json) (hlists : Lists json ds) (hrange : ∀ d ∈ ds, d.InRange)
    (hrun : h.run m w = .ok w') (hreceived : Event.received packet ∈ w'.events) :
    List.Forall₂ Preserves (ds.take packet.devices.length) packet.devices ↔
      ∀ d ∈ ds.take packet.devices.length, d.Plain := by
  obtain ⟨json', params, hjson', hparams, hbrings⟩ := brings_of_received hrun hreceived
  obtain rfl : json = json' := Option.some.inj (hjson.symm.trans hjson')
  obtain ⟨params', devices, hparams', hdevices, hdescribes⟩ := hlists
  obtain rfl : params = params' := Option.some.inj (hparams.symm.trans hparams')
  rcases hbrings with hnone | hbrings
  · simp [hnone]
  · obtain ⟨devs, num, hunpack, hpacket⟩ := hbrings devices hdevices
    have hforall := unpackLoop_forall hunpack
    have hlength : ds.length = devs.length := hdescribes.length_eq.symm.trans hforall.length_eq
    have htake : ds.take packet.devices.length = ds.take num := by
      rw [hpacket, length_take, ← hlength, ← take_eq_take_min]
    rw [htake, hpacket]
    exact forall_preserves_iff hforall hint hdescribes hrange num

def Members.json (d : Members) : Tree :=
  .object [(.pid, .number d.pid), (.did, .number d.did), (.flag, .number d.flag), (.elementNum, .number d.elementNum),
    (.unicastAddr, .number d.unicastAddr), (.ivIndex, .number d.ivIndex), (.netIndex, .number d.netIndex),
    (.mac, .string d.mac), (.devKey, .string d.devKey)]

theorem describes_json (d : Members) : Describes d.json d := by
  constructor <;> rfl

def addition (ds : List Members) : Tree :=
  .object [(.id, .number 7), (.params, .object [(.devType, .number 1), (.devices, .array (ds.map Members.json))])]

theorem lists_addition (ds : List Members) : Lists (addition ds) ds :=
  ⟨_, _, rfl, rfl, forall₂_map_left_iff.mpr (forall₂_same.mpr fun d _ => describes_json d)⟩

def calm : World := ⟨.empty, fun _ => false, 0, true, []⟩

/-- A device, but for its `iv_index` and address. -/
def sample (ivIndex : Nat) (mac : Bytes) : Members where
  pid := 1
  did := 2
  flag := 3
  elementNum := 1
  unicastAddr := 5
  ivIndex := ivIndex
  netIndex := 0
  mac := mac
  devKey := List.replicate 32 48

/-- A device whose `iv_index` has no low bits. -/
theorem devices_preserved_sample : ∃ w' packet,
    Handler.addNotify.run ⟨true, some (addition [sample 65536 (List.replicate 12 65)])⟩ calm = .ok w' ∧
      Event.received packet ∈ w'.events ∧
      List.Forall₂ Preserves [sample 65536 (List.replicate 12 65)] packet.devices := by
  have hrun : ∃ w' packet,
      Handler.addNotify.run ⟨true, some (addition [sample 65536 (replicate 12 65)])⟩ calm = .ok w' ∧
        Event.received packet ∈ w'.events ∧ packet.devices.length = 1 :=
    ⟨_, _, rfl, mem_cons_self .., rfl⟩
  obtain ⟨w', packet, hrun, hreceived, hlength⟩ := hrun
  have hpreserved := devices_preserved_iff tree_saturates rfl (lists_addition _)
    (forall_mem_singleton.mpr (by constructor <;> decide)) hrun hreceived
  rw [hlength] at hpreserved
  exact ⟨w', packet, hrun, hreceived, hpreserved.mpr (forall_mem_singleton.mpr (by constructor <;> decide))⟩

/-- An `iv_index` of 1 arrives as 0, and an address of thirteen characters as six zeros. -/
theorem devices_not_preserved :
    (∃ w' packet, Handler.addNotify.run ⟨true, some (addition [sample 1 (List.replicate 12 65)])⟩ calm = .ok w' ∧
      Event.received packet ∈ w'.events ∧ packet.devices.map (·.get .ivIndex) = [0]) ∧
    (∃ w' packet, Handler.addNotify.run ⟨true, some (addition [sample 0 (List.replicate 13 65)])⟩ calm = .ok w' ∧
      Event.received packet ∈ w'.events ∧ packet.devices.map (·.bytes .mac) = [List.replicate 6 0]) ∧
    ¬ ∀ (h : Handler) (m : Publication Tree) (json : Tree) (ds : List Members) (w w' : World) (packet : Packet),
      m.json = some json → Lists json ds → (∀ d ∈ ds, d.InRange) → h.run m w = .ok w' →
        Event.received packet ∈ w'.events →
        List.Forall₂ Preserves (ds.take packet.devices.length) packet.devices := by
  have hiv : ∃ w' packet,
      Handler.addNotify.run ⟨true, some (addition [sample 1 (replicate 12 65)])⟩ calm = .ok w' ∧
        Event.received packet ∈ w'.events ∧ packet.devices = [record (sample 1 (replicate 12 65))] :=
    ⟨_, _, rfl, mem_cons_self .., rfl⟩
  have hzero : (record (sample 1 (replicate 12 65))).get .ivIndex = 0 := record_ivIndex _ (by decide)
  obtain ⟨w', packet, hrun, hreceived, hdevices⟩ := hiv
  refine ⟨⟨w', packet, hrun, hreceived, by rw [hdevices, map_singleton, hzero]⟩,
    ⟨_, _, rfl, mem_cons_self .., rfl⟩, fun hall => ?_⟩
  have hforall := hall .addNotify _ _ _ calm w' packet rfl (lists_addition _)
    (forall_mem_singleton.mpr (by constructor <;> decide)) hrun hreceived
  rw [hdevices] at hforall
  have hpreserves := (forall₂_cons.mp hforall).1
  exact nomatch hzero.symm.trans hpreserves.ivIndex

end Qumios.Subdev
