import Qumios.Subdev.Handlers

/-! The report of the states of sub-devices: `qm_iot_subdev_state_report`.

The loop advances the pointer to the array by its index, not by one, so round `i` is at element
`0 + 1 + … + i` (`reportLoop_eq`). Up to two devices that is element `i`; from three on the last rounds read
behind the array. -/
namespace Qumios.Subdev
open List

/-! ### The report -/

/-- `qm_iot_subdev_msg_id_get`. -/
def msgIdGet (msgId : Nat) : Nat := if msgId = 65535 then 1 else msgId + 1

def entry (s : DevState) : Tree :=
  .object ([(.devType, .number s.devType), (.did, .number s.did), (.state, .number s.state)] ++
    if s.devType = typeBleMesh ∧ s.state ≠ 0 then [(.ttl, .number s.ttl), (.rssi, .number s.rssi)] else [])

/-- The pointer, as a place in the memory from the array on; the entries; and the places that were read. -/
structure Reporting where
  position : Nat
  entries : List Tree
  reads : List Nat

/-- A round of the loop: `subdev_state += i`. -/
def reportRound (memory : Nat → DevState) (r : Reporting) (i : Nat) : Reporting where
  position := r.position + i
  entries := r.entries ++ [entry (memory (r.position + i))]
  reads := r.reads ++ [r.position + i]

def reportLoop (memory : Nat → DevState) (devNum : Nat) : Reporting :=
  (List.range devNum).foldl (reportRound memory) ⟨0, [], []⟩

/-- What is published, the message id that is kept, and the places of the memory that were read. -/
structure Report where
  payload : Tree
  msgId : Nat
  reads : List Nat

/-- `qm_iot_subdev_state_report`, at a time and with the message id before it. -/
def stateReport (msgId time : Nat) (memory : Nat → DevState) (devNum : Nat) : Except Errno Report :=
  if devNum = 0 then .error .einval
  else
    let r := reportLoop memory devNum
    .ok
      { payload := .object [(.method, .string "subdevStateReq".toUTF8.toList), (.id, .number (msgIdGet msgId)),
          (.timestamp, .number time), (.params, .array r.entries)]
        msgId := msgIdGet msgId
        reads := r.reads }

/-- The payload has an entry for each element of the array, in order, and nothing else is read. -/
structure Covers (memory : Nat → DevState) (devNum : Nat) (report : Report) : Prop where
  entries : getObjectItem report.payload .params = some (.array ((List.range devNum).map fun i => entry (memory i)))
  inside : ∀ place ∈ report.reads, place < devNum

/-! ### The places -/

/-- The loop is at element `i (i + 1) / 2` in round `i`. -/
theorem reportLoop_eq (memory : Nat → DevState) (devNum : Nat) :
    reportLoop memory devNum =
      { position := devNum * (devNum - 1) / 2
        entries := (List.range devNum).map fun i => entry (memory (i * (i + 1) / 2))
        reads := (List.range devNum).map fun i => i * (i + 1) / 2 } := by
  induction devNum with
  | zero => rfl
  | succ devNum ih =>
    have hposition : devNum * (devNum - 1) / 2 + devNum = devNum * (devNum + 1) / 2 := by
      rw [← Nat.add_mul_div_right _ _ (by decide : 0 < 2)]
      cases devNum with
      | zero => rfl
      | succ n =>
        rw [Nat.add_sub_cancel, ← Nat.mul_add]
    rw [reportLoop] at ih ⊢
    rw [range_succ, foldl_append, ih, foldl_cons, foldl_nil, reportRound, hposition]
    simp only [map_append, map_singleton, Nat.add_sub_cancel, Nat.mul_comm (devNum + 1)]

/-- **What the report covers**: all of its array if that has one or two elements, and in no other case. -/
theorem report_covers_iff (msgId time : Nat) (memory : Nat → DevState) (devNum : Nat) :
    (∃ report, stateReport msgId time memory devNum = .ok report ∧ Covers memory devNum report) ↔
      devNum = 1 ∨ devNum = 2 := by
  rw [stateReport]
  by_cases hzero : devNum = 0
  · rw [if_pos hzero]
    exact ⟨(fun h => h.elim fun _ h => nomatch h.1), fun h => by omega⟩
  · rw [if_neg hzero]
    constructor
    · rintro ⟨report, hreport, hcovers⟩
      obtain rfl := Except.ok.inj hreport
      have hinside := hcovers.inside
      simp only [reportLoop_eq, mem_map, mem_range] at hinside
      -- the place of the last round
      have hlast := hinside _ ⟨devNum - 1, by omega, rfl⟩
      by_contra hmany
      have hproduct : 2 * devNum ≤ (devNum - 1) * (devNum - 1 + 1) := by
        rw [Nat.sub_add_cancel (by omega)]
        exact Nat.mul_le_mul_right devNum (by omega)
      omega
    · intro hfew
      have hplace : ∀ i < devNum, i * (i + 1) / 2 = i := by
        rcases hfew with rfl | rfl <;> decide
      refine ⟨_, rfl, ?_, ?_⟩
      · have hentries : (reportLoop memory devNum).entries = (List.range devNum).map fun i => entry (memory i) := by
          rw [reportLoop_eq]
          exact map_congr_left fun i hi => by rw [hplace i (mem_range.mp hi)]
        rw [hentries]
        rfl
      · intro place hread
        simp only [reportLoop_eq, mem_map, mem_range] at hread
        obtain ⟨i, hi, rfl⟩ := hread
        rwa [hplace i hi]

/-- The third entry of three describes what lies behind the array. -/
theorem report_not_covers :
    (stateReport 0 0 (fun i => ⟨typeBleMesh, i, 1, 0, 0⟩) 3).toOption.map Report.reads = some [0, 1, 3] ∧
      ¬ ∀ (msgId time : Nat) (memory : Nat → DevState) (devNum : Nat), 0 < devNum →
        ∃ report, stateReport msgId time memory devNum = .ok report ∧ Covers memory devNum report := by
  refine ⟨rfl, fun hcovers => ?_⟩
  obtain ⟨report, hreport, hcovers⟩ := hcovers 0 0 (fun i => ⟨typeBleMesh, i, 1, 0, 0⟩) 3 (by decide)
  obtain rfl := Except.ok.inj hreport
  exact absurd (hcovers.inside 3 (by decide)) (by decide)

end Qumios.Subdev
