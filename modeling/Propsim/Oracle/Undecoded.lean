import Propsim.Oracle.Verdicts

/-!
# Operations that are left out of the order

`check` has a verdict for a history that does not decode, but the pairing loop never fails: an
operation that the model rejects yields no span, and neither does a completion that closes no
Invoke. So that verdict is never returned (`check_ne_decodeFailed`), and a history with a
successful completion that is left out is accepted exactly when the other operations can be ordered
(`check_leavesOut_iff`).
-/

set_option autoImplicit false
set_option relaxedAutoImplicit false

namespace Propsim.Oracle

open Foundation Interchange Propsim.Core

variable {M : SequentialModel}

/-- Some successful operation of a history is one that the model rejects. -/
def RejectsOk (M : SequentialModel) (entries : List OpEntry) : Prop :=
  ∃ o inv c, Closes entries o inv c ∧ c.kind = .ok ∧ M.decode c.f.name inv.value c.value = none

/-- Some successful completion of a history closes no Invoke with which the model decodes it. -/
def LeavesOut (M : SequentialModel) (entries : List OpEntry) : Prop :=
  ∃ (pos : ℕ) (c : OpEntry), entries[pos]? = some c ∧ c.kind = .ok ∧
    ∀ o inv, Closes entries o inv c → o.completion = pos →
      M.decode c.f.name inv.value c.value = none

/-- The operations of a history that are not left out can be ordered: in accordance with real time
or in any order. -/
def OthersSerializable (M : SequentialModel) (realTime : Bool) (entries : List OpEntry) : Prop :=
  Serializable (closedOperations M entries)
    (fun first second ↦ realTime = true ∧ RealTime first second) (stepAt M entries)
    (AnswersAt M entries) M.init

/-- A rejected successful operation is left out. -/
theorem RejectsOk.leavesOut {entries : List OpEntry} (h : RejectsOk M entries) :
    LeavesOut M entries := by
  obtain ⟨o, inv, c, hcloses, hkind, hdecode⟩ := h
  refine ⟨o.completion, c, hcloses.completion_entry, hkind, fun o' inv' hcloses' hsame ↦ ?_⟩
  obtain rfl := hcloses'.invoke_unique hcloses hsame
  rwa [Option.some.inj (hcloses'.invoke_entry.symm.trans hcloses.invoke_entry)]

/-- On an alternating history, a successful completion is left out exactly when the model does not
decode all successful operations. -/
theorem leavesOut_iff {entries : List OpEntry} (h : Alternates entries) :
    LeavesOut M entries ↔ ¬ Decodes M .ok entries := by
  constructor
  · rintro ⟨pos, c, hc, hkind, hdecode⟩ hdecodes
    obtain ⟨i, inv, hcompletes⟩ := h.exists_invoke hc (by simp [hkind])
    have hsome := hdecodes ⟨i, pos⟩ ⟨inv, c, hcompletes, hkind⟩
    rw [decodeAt_eq hcompletes, hdecode _ inv hcompletes.closes rfl] at hsome
    cases hsome
  · intro hdecodes
    simp only [Decodes, not_forall] at hdecodes
    obtain ⟨o, ⟨inv, c, hc, hkind⟩, hdecode⟩ := hdecodes
    rw [decodeAt_eq hc, Option.not_isSome_iff_eq_none] at hdecode
    exact RejectsOk.leavesOut ⟨o, inv, c, hc.closes, hkind, hdecode⟩

/-! ### The verdicts -/

/-- The verdict for a history that does not decode is never returned. -/
theorem check_ne_decodeFailed (oracle : LinearizabilityOracle M) (out : RunOutput) (detail : Text)
    (witness : Option Witness) :
    oracle.check out ≠ ⟨false, [.withDetail "history-decode-failed" detail], witness⟩ := by
  rw [LinearizabilityOracle.check, parseSpans]
  simp only
  by_cases hfound : search M oracle.realTime (pairEntries M out.history.entries).spans = true
  · rw [if_pos hfound]
    exact fun h ↦ by cases congrArg Verdict.isValid h
  · rw [if_neg hfound]
    intro h
    have hanomalies := congrArg Verdict.anomalies h
    simp [Verdict.withWitness, Verdict.invalid, Anomaly.new, Anomaly.withDetail] at hanomalies

/-- A model with a decoder that rejects everything. -/
def rejectingModel : SequentialModel where
  State := Unit
  Op := Unit
  init := ()
  step _ _ := ((), ⟨.nil⟩)
  decode _ _ _ := none

/-- A model that rejects everything accepts every history. -/
theorem rejectingModel_accepts (oracle : LinearizabilityOracle rejectingModel) (out : RunOutput) :
    (oracle.check out).isValid = true := by
  have hnone : closedOperations rejectingModel out.history.entries = ∅ := by
    refine Set.eq_empty_of_forall_notMem ?_
    rintro o ⟨inv, c, -, -, hdecode⟩
    cases hdecode
  rw [check_isValid_closed_iff, hnone]
  exact serializable_iff_exists_first.mpr (Or.inl rfl)

/-- When the checker keeps its promise on operations that it leaves out. A rejected successful
operation gives the verdict for a history that does not decode exactly when there is none. A
successful completion that is left out gives an invalid verdict exactly when there is none or the
other operations cannot be ordered; and it does so for all models exactly when no operation of the
history is successful. -/
theorem check_leavesOut_iff (oracle : LinearizabilityOracle M) (out : RunOutput) :
    ((RejectsOk M out.history.entries → ∃ detail witness,
        oracle.check out = ⟨false, [.withDetail "history-decode-failed" detail], witness⟩) ↔
      ¬ RejectsOk M out.history.entries) ∧
    ((LeavesOut M out.history.entries → (oracle.check out).isValid = false) ↔
      ¬ LeavesOut M out.history.entries ∨
        ¬ OthersSerializable M oracle.realTime out.history.entries) ∧
    ((∀ (M : SequentialModel) (oracle : LinearizabilityOracle M),
        LeavesOut M out.history.entries → (oracle.check out).isValid = false) ↔
      ∀ e ∈ out.history.entries, e.kind ≠ .ok) := by
  refine ⟨⟨fun hclaim hrejects ↦ ?_, fun hnone hrejects ↦ absurd hrejects hnone⟩, ?_,
    fun hclaim e he hkind ↦ ?_, fun hnone M oracle hleaves ↦ ?_⟩
  · obtain ⟨detail, witness, hcheck⟩ := hclaim hrejects
    exact check_ne_decodeFailed oracle out detail witness hcheck
  · have hverdict : (oracle.check out).isValid = false ↔
        ¬ OthersSerializable M oracle.realTime out.history.entries := by
      rw [← Bool.not_eq_true, check_isValid_closed_iff]
      rfl
    rw [hverdict, imp_iff_not_or]
  · obtain ⟨pos, hpos⟩ := List.mem_iff_getElem?.mp he
    have hinvalid := hclaim rejectingModel (linearizableOracle rejectingModel)
      ⟨pos, e, hpos, hkind, fun _ _ _ _ ↦ rfl⟩
    rw [rejectingModel_accepts] at hinvalid
    cases hinvalid
  · obtain ⟨pos, c, hc, hkind, -⟩ := hleaves
    exact absurd hkind (hnone c (List.mem_of_getElem? hc))

/-- A compare-and-set, which the register does not decode. -/
def unknownOperation : List OpEntry :=
  [registerEntry 0 .invoke 0 "cas" 1, registerEntry 1 .ok 0 "cas" 1]

/-- Both modes accept a history whose only operation is rejected by the model. -/
theorem unknownOperation_accepted :
    RejectsOk registerModel unknownOperation ∧
      ((linearizableOracle registerModel).check (historyOutput unknownOperation)).isValid = true ∧
      ((sequentiallyConsistentOracle registerModel).check
        (historyOutput unknownOperation)).isValid = true := by
  have hcompletes : Completes unknownOperation ⟨0, 1⟩ (registerEntry 0 .invoke 0 "cas" 1)
      (registerEntry 1 .ok 0 "cas" 1) :=
    ⟨rfl, rfl, rfl, by decide, rfl, by decide, fun k e h1 h2 ↦ absurd h2 (Nat.not_lt.mpr h1)⟩
  refine ⟨⟨⟨0, 1⟩, _, _, hcompletes.closes, rfl, rfl⟩, ?_, ?_⟩
  · decide +kernel
  · decide +kernel

/-- A read that was never invoked. -/
def strayRead : List OpEntry := [registerEntry 0 .ok 0 "read" 7]

/-- A completion that closes no Invoke is left out, whatever it answers. -/
example : LeavesOut registerModel strayRead ∧
    ((linearizableOracle registerModel).check (historyOutput strayRead)).isValid = true := by
  refine ⟨⟨0, registerEntry 0 .ok 0 "read" 7, rfl, rfl, fun o inv hcloses hsame ↦ ?_⟩, ?_⟩
  · exact absurd hcloses.invoke_lt (by omega)
  · decide +kernel

end Propsim.Oracle
