import Propsim.Oracle.Verdicts

/-!
# Indeterminate operations under the linearizability checker

An operation that completed as Info may have taken effect at any moment after its Invoke, or never.
The pairing loop gives a decoded Info completion a span like that of a successful one, so the search
has to place it before everything invoked after its Info entry and with its recorded payload as the
response. `linearizable_check_infoAsOk` says so, and `linearizable_check_optionally_iff` says for
which models and for which histories the verdict is nevertheless the intended one.
-/

set_option autoImplicit false
set_option relaxedAutoImplicit false

namespace Propsim.Oracle

open Foundation Interchange Propsim.Core

variable {M : SequentialModel}

/-- Some of the indeterminate operations, together with all the successful ones, have a total order
that respects real time after successful operations and in which the model answers every successful
operation with its observed response. The responses of indeterminate operations do not matter. -/
def OptionallyLinearizable (M : SequentialModel) (entries : List OpEntry) : Prop :=
  ∃ taken ⊆ operationsOf .info entries,
    Serializable (operationsOf .ok entries ∪ taken)
      (fun first second ↦ first ∈ operationsOf .ok entries ∧ RealTime first second)
      (stepAt M entries)
      (fun state o ↦ o ∈ operationsOf .ok entries → AnswersAt M entries state o) M.init

/-- Every indeterminate operation, taken as if it had succeeded at its Info entry with the response
recorded there, is part of a linearization. -/
def LinearizableWithInfoAsOk (M : SequentialModel) (entries : List OpEntry) : Prop :=
  Serializable (operationsOf .ok entries ∪ operationsOf .info entries) RealTime
    (stepAt M entries) (AnswersAt M entries) M.init

/-- Assumes: an alternating history in which the model decodes every successful and every
indeterminate operation. The checker takes indeterminate operations as successful. -/
theorem linearizable_check_infoAsOk (M : SequentialModel) (out : RunOutput)
    (halternates : Alternates out.history.entries) (hok : Decodes M .ok out.history.entries)
    (hinfo : Decodes M .info out.history.entries) :
    ((linearizableOracle M).check out).isValid = true ↔
      LinearizableWithInfoAsOk M out.history.entries := by
  rw [check_isValid_iff _ _ halternates, spannedOperations_eq hok hinfo]
  simp [linearizableOracle, LinearizableWithInfoAsOk]

/-- Taking every indeterminate operation as successful is one way of choosing among them. -/
theorem LinearizableWithInfoAsOk.optionally {entries : List OpEntry}
    (h : LinearizableWithInfoAsOk M entries) : OptionallyLinearizable M entries := by
  obtain ⟨order, henum, hrespects, hlegal⟩ := h
  refine ⟨operationsOf .info entries, Set.Subset.rfl, order, henum,
    hrespects.imp fun hnot hbefore ↦ hnot hbefore.2, hlegal.mono ?_⟩
  exact fun _ _ hanswer _ ↦ hanswer

/-- Without indeterminate operations there is nothing to choose. -/
theorem OptionallyLinearizable.infoAsOk {entries : List OpEntry}
    (hdefinite : ∀ e ∈ entries, e.kind ≠ .info) (h : OptionallyLinearizable M entries) :
    LinearizableWithInfoAsOk M entries := by
  obtain ⟨taken, htaken, order, henum, hrespects, hlegal⟩ := h
  have hinfo := operationsOf_eq_empty hdefinite
  have hempty : taken = ∅ := Set.subset_empty_iff.mp (hinfo ▸ htaken)
  rw [hempty, Set.union_empty] at henum
  rw [LinearizableWithInfoAsOk, hinfo, Set.union_empty]
  have hin (o : Operation) (ho : o ∈ order) : o ∈ operationsOf .ok entries := (henum.2 o).mp ho
  refine ⟨order, henum, hrespects.imp_of_mem fun _ hsecond hnot hbefore ↦
    hnot ⟨hin _ hsecond, hbefore⟩, ?_⟩
  exact (legal_congr (fun _ _ _ ↦ rfl) (fun o ho state ↦ by simp [hin o ho]) _).mp hlegal

/-! ### A history shows the difference to some model -/

/-- A list of operations of one kind in the order of their completions respects real time. -/
theorem respects_realTime {kind : OpKind} {entries : List OpEntry} {order : List Operation}
    (henum : Enumerates (operationsOf kind entries) order)
    (hsorted : order.Pairwise fun first second ↦ first.completion ≤ second.completion) :
    Respects RealTime order := by
  refine hsorted.imp_of_mem fun hfirst _ hle hbefore ↦ ?_
  obtain ⟨inv, c, hc, -⟩ := (henum.2 _).mp hfirst
  have := hc.invoke_lt
  simp only [RealTime] at hbefore
  omega

/-- A model that answers correctly a given number of times and never again. -/
def countingModel (limit : ℕ) : SequentialModel where
  State := ℕ
  Op := Unit
  init := (0 : ℕ)
  step count _ := (count + 1, ⟨if count < limit then .nil else .bool true⟩)
  decode _ _ _ := some ((), ⟨.nil⟩)

theorem decodes_countingModel (limit : ℕ) (kind : OpKind) (entries : List OpEntry) :
    Decodes (countingModel limit) kind entries :=
  decodes_of_forall_mem fun _ _ _ _ _ ↦ rfl

/-- The counting model answers an operation of the history while it is below its limit. -/
theorem answersAt_countingModel {limit : ℕ} {entries : List OpEntry} {o : Operation}
    (hdecode : decodeAt (countingModel limit) entries o = some ((), ⟨.nil⟩)) (count : ℕ) :
    AnswersAt (countingModel limit) entries count o ↔ count < limit := by
  have hresponse : (((countingModel limit).step count ()).2.eq ⟨.nil⟩ = true) ↔ count < limit := by
    show (Response.eq ⟨if count < limit then .nil else .bool true⟩ ⟨.nil⟩ = true) ↔ _
    split_ifs with h <;> simp [Response.eq, Value.eq, h]
  rw [← hresponse]
  constructor
  · rintro ⟨op, response, hsome, heq⟩
    rw [hdecode] at hsome
    obtain ⟨rfl, rfl⟩ := Prod.mk.inj (Option.some.inj hsome)
    exact heq
  · exact fun heq ↦ ⟨(), ⟨.nil⟩, hdecode, heq⟩

/-- A nonempty order of operations of the history is legal for the counting model exactly when the
limit leaves room for it. -/
theorem legal_countingModel {limit : ℕ} {entries : List OpEntry} {order : List Operation}
    (hdecodes : ∀ o ∈ order, decodeAt (countingModel limit) entries o = some ((), ⟨.nil⟩))
    (count : ℕ) :
    Legal (stepAt (countingModel limit) entries) (AnswersAt (countingModel limit) entries) count
      order ↔ order = [] ∨ count + order.length ≤ limit := by
  induction order generalizing count with
  | nil => exact iff_of_true trivial (Or.inl rfl)
  | cons o rest ih =>
    have hdecode := hdecodes o (by simp)
    have hstep : stepAt (countingModel limit) entries count o = count + 1 := by
      simp only [stepAt, hdecode]
      rfl
    have hrest : Legal (stepAt (countingModel limit) entries)
        (AnswersAt (countingModel limit) entries) (stepAt (countingModel limit) entries count o)
        rest ↔ rest = [] ∨ count + 1 + rest.length ≤ limit := by
      rw [hstep]
      exact ih (fun o' ho' ↦ hdecodes o' (List.mem_cons_of_mem _ ho')) (count + 1)
    refine (and_congr (answersAt_countingModel hdecode count) hrest).trans ?_
    simp only [List.length_cons, reduceCtorEq, false_or, ← List.length_eq_zero_iff]
    omega

/-- An indeterminate operation in an alternating history makes the checker miss an explanation
under some model that decodes every operation. -/
theorem exists_missed_explanation {entries : List OpEntry} (halternates : Alternates entries)
    (hindeterminate : ∃ e ∈ entries, e.kind = .info) :
    ∃ limit, OptionallyLinearizable (countingModel limit) entries ∧
      ¬ LinearizableWithInfoAsOk (countingModel limit) entries := by
  obtain ⟨e, he, hkind⟩ := hindeterminate
  obtain ⟨j, hj⟩ := List.mem_iff_getElem?.mp he
  obtain ⟨i, inv, hcompletes⟩ := halternates.exists_invoke hj (by simp [hkind])
  have hinfo : (⟨i, j⟩ : Operation) ∈ operationsOf .info entries := ⟨inv, e, hcompletes, hkind⟩
  obtain ⟨order, henum, hsorted⟩ := exists_enumeration .ok entries
  have hdecode {limit : ℕ} {kind : OpKind} (o : Operation) (ho : o ∈ operationsOf kind entries) :
      decodeAt (countingModel limit) entries o = some ((), ⟨.nil⟩) := by
    obtain ⟨inv, c, hc, -⟩ := ho
    rw [decodeAt_eq hc]
    rfl
  refine ⟨order.length, ⟨∅, Set.empty_subset _, order, by simpa using henum,
    (respects_realTime henum hsorted).imp fun hnot hbefore ↦ hnot hbefore.2, ?_⟩, ?_⟩
  · have hlegal : Legal (stepAt (countingModel order.length) entries)
        (AnswersAt (countingModel order.length) entries) (0 : ℕ) order :=
      (legal_countingModel (fun o ho ↦ hdecode o ((henum.2 o).mp ho)) 0).mpr (Or.inr (by omega))
    refine hlegal.mono ?_
    exact fun _ _ hanswer _ ↦ hanswer
  · rintro ⟨whole, hwhole, -, hlegal⟩
    have hroom := (legal_countingModel (fun o ho ↦ by
      rcases (hwhole.2 o).mp ho with hok | hinfo
      · exact hdecode o hok
      · exact hdecode o hinfo) 0).mp hlegal
    -- the whole order holds the successful operations and one more
    have hsubset : (⟨i, j⟩ :: order) ⊆ whole := by
      intro o ho
      rcases List.mem_cons.mp ho with rfl | hin
      · exact (hwhole.2 _).mpr (Or.inr hinfo)
      · exact (hwhole.2 _).mpr (Or.inl ((henum.2 o).mp hin))
    have hnodup : (⟨i, j⟩ :: order : List Operation).Nodup := by
      refine List.nodup_cons.mpr ⟨fun hin ↦ ?_, henum.1⟩
      obtain ⟨inv', c, hc, hok⟩ := (henum.2 _).mp hin
      have hsame : c = e := Option.some.inj (hc.completion_entry.symm.trans hj)
      simp [← hsame, hok] at hkind
    have hlength := (List.subperm_of_subset hnodup hsubset).length_le
    rcases hroom with hnil | hroom
    · simp [hnil] at hlength
    · simp only [List.length_cons] at hlength
      omega

/-- When the verdict of the linearizable mode is the intended one. For one model that decodes every
operation, it is so exactly when an explanation that chooses among the indeterminate operations
implies one that takes them all as successful. For all such models, it is so exactly when the
history has no indeterminate operation. Assumes: an alternating history. -/
theorem linearizable_check_optionally_iff (entries : List OpEntry)
    (halternates : Alternates entries) :
    (∀ (M : SequentialModel) (out : RunOutput), out.history.entries = entries →
      Decodes M .ok entries → Decodes M .info entries →
        ((((linearizableOracle M).check out).isValid = true ↔ OptionallyLinearizable M entries) ↔
          (OptionallyLinearizable M entries → LinearizableWithInfoAsOk M entries))) ∧
    ((∀ (M : SequentialModel) (out : RunOutput), out.history.entries = entries →
      Decodes M .ok entries → Decodes M .info entries →
        (((linearizableOracle M).check out).isValid = true ↔ OptionallyLinearizable M entries)) ↔
      ∀ e ∈ entries, e.kind ≠ .info) := by
  have hverdict (M : SequentialModel) (out : RunOutput) (hout : out.history.entries = entries)
      (hok : Decodes M .ok entries) (hinfo : Decodes M .info entries) :
      ((((linearizableOracle M).check out).isValid = true ↔ OptionallyLinearizable M entries) ↔
        (OptionallyLinearizable M entries → LinearizableWithInfoAsOk M entries)) := by
    subst hout
    rw [linearizable_check_infoAsOk M out halternates hok hinfo]
    exact ⟨Iff.mpr, fun himplies ↦ ⟨LinearizableWithInfoAsOk.optionally, himplies⟩⟩
  refine ⟨hverdict, fun hagree ↦ ?_, fun hdefinite M out hout hok hinfo ↦
    (hverdict M out hout hok hinfo).mpr fun h ↦ h.infoAsOk hdefinite⟩
  by_contra hsome
  obtain ⟨limit, hoptional, hmissed⟩ :=
    exists_missed_explanation halternates (by push Not at hsome; exact hsome)
  have hok := decodes_countingModel limit .ok entries
  have hinfo := decodes_countingModel limit .info entries
  exact hmissed ((hverdict _ (historyOutput entries) rfl hok hinfo).mp
    (hagree _ (historyOutput entries) rfl hok hinfo) hoptional)

/-- A write that never completed definitely, and a later read of the old value. -/
def lostWrite : List OpEntry :=
  [registerEntry 0 .invoke 0 "write" 1, registerEntry 1 .info 0 "write" 1,
    registerEntry 2 .invoke 1 "read" 0, registerEntry 3 .ok 1 "read" 0]

/-- At the lost write the two notions differ for some model that decodes every operation. -/
theorem lostWrite_disagreement :
    ((((linearizableOracle registerModel).check (historyOutput lostWrite)).isValid = true ↔
        OptionallyLinearizable registerModel lostWrite) ↔
      (OptionallyLinearizable registerModel lostWrite →
        LinearizableWithInfoAsOk registerModel lostWrite)) ∧
    ¬ ∀ (M : SequentialModel) (out : RunOutput), out.history.entries = lostWrite →
      Decodes M .ok lostWrite → Decodes M .info lostWrite →
        (((linearizableOracle M).check out).isValid = true ↔
          OptionallyLinearizable M lostWrite) := by
  have hiff := linearizable_check_optionally_iff lostWrite (by decide)
  refine ⟨hiff.1 registerModel (historyOutput lostWrite) rfl (decodes_of_forall_mem (by decide))
    (decodes_of_forall_mem (by decide)), fun hall ↦ ?_⟩
  exact hiff.2.mp hall (registerEntry 1 .info 0 "write" 1) (by simp [lostWrite]) rfl

/-- The checker rejects the lost write, which the register explains by never performing it. -/
theorem lostWrite_rejected :
    Alternates lostWrite ∧ Decodes registerModel .ok lostWrite ∧
      Decodes registerModel .info lostWrite ∧
      ¬ (((linearizableOracle registerModel).check (historyOutput lostWrite)).isValid = true ↔
        OptionallyLinearizable registerModel lostWrite) := by
  refine ⟨by decide, decodes_of_forall_mem (by decide), decodes_of_forall_mem (by decide),
    fun hiff ↦ ?_⟩
  have hexplained : OptionallyLinearizable registerModel lostWrite := by
    refine ⟨∅, Set.empty_subset _, [⟨2, 3⟩], ⟨by simp, fun o ↦ ?_⟩, by simp [Respects], ?_⟩
    · have hoperations : operationsOf .ok lostWrite = {o | o ∈ [⟨2, 3⟩]} :=
        operationsOf_eq (by decide) (by decide)
      rw [hoperations]
      simp
    · exact ⟨fun _ ↦ ⟨.read, ⟨.int 0⟩, rfl, by decide +kernel⟩, trivial⟩
  exact absurd (hiff.mpr hexplained) (by decide +kernel)

end Propsim.Oracle
