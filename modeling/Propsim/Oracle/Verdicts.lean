import Propsim.Oracle.Pairing
import Propsim.Oracle.SearchCorrectness
import Mathlib.Data.List.Sort
import Mathlib.Data.Set.Finite.Lattice
import Mathlib.Order.Interval.Finset.Nat
import Mathlib.Order.Interval.Set.Infinite
import Mathlib.Data.Finite.Prod

/-!
# What a verdict means for the history

On any history the checker is valid exactly when the Invokes and completions that belong together,
did not fail and decode are serializable, under real-time precedence in the linearizable mode and
under no precedence at all in the sequentially consistent mode (`check_isValid_closed_iff`). On an
alternating history these are its operations (`check_isValid_iff`), and the linearizable mode is
sound and complete when every operation is definite (`linearizable_check_iff`).
-/

set_option autoImplicit false
set_option relaxedAutoImplicit false

namespace Propsim.Oracle

open Foundation Interchange Propsim.Core

variable {M : SequentialModel}

/-! ### Operations of a history under a model -/

/-- The operations that completed with a given kind. -/
def operationsOf (kind : OpKind) (entries : List OpEntry) : Set Operation :=
  {o | ∃ inv c, Completes entries o inv c ∧ c.kind = kind}

/-- Membership among the operations of a kind looks at finitely many entries. -/
theorem mem_operationsOf_iff (kind : OpKind) (entries : List OpEntry) (o : Operation) :
    o ∈ operationsOf kind entries ↔
      ∃ inv ∈ entries[o.invoke]?, ∃ c ∈ entries[o.completion]?, inv.kind = .invoke ∧
        c.kind ≠ .invoke ∧ c.process = inv.process ∧ o.invoke < o.completion ∧
        (∀ k < o.completion, o.invoke < k → ∀ e ∈ entries[k]?, e.process ≠ inv.process) ∧
        c.kind = kind := by
  constructor
  · rintro ⟨inv, c, ⟨hinv, hc, hik, hck, hp, hlt, hadjacent⟩, hkind⟩
    exact ⟨inv, hinv, c, hc, hik, hck, hp, hlt, fun k h2 h1 e he ↦ hadjacent k e h1 h2 he, hkind⟩
  · rintro ⟨inv, hinv, c, hc, hik, hck, hp, hlt, hadjacent, hkind⟩
    exact ⟨inv, c, ⟨hinv, hc, hik, hck, hp, hlt, fun k e h1 h2 he ↦ hadjacent k h2 h1 e he⟩,
      hkind⟩

instance (kind : OpKind) (entries : List OpEntry) (o : Operation) :
    Decidable (o ∈ operationsOf kind entries) :=
  decidable_of_iff _ (mem_operationsOf_iff kind entries o).symm

/-- The positions of an operation are positions of the history. -/
theorem operationsOf_subset (kind : OpKind) (entries : List OpEntry) :
    operationsOf kind entries ⊆
      {o | o.invoke < entries.length ∧ o.completion < entries.length} := by
  rintro o ⟨inv, c, hc, -⟩
  exact ⟨(List.getElem?_eq_some_iff.mp hc.invoke_entry).1,
    (List.getElem?_eq_some_iff.mp hc.completion_entry).1⟩

/-- The operations of a kind are those of a list, by a check of all pairs of positions. -/
theorem operationsOf_eq {kind : OpKind} {entries : List OpEntry} {operations : List Operation}
    (hcomplete : ∀ i < entries.length, ∀ j < entries.length,
      (⟨i, j⟩ : Operation) ∈ operationsOf kind entries → ⟨i, j⟩ ∈ operations)
    (hsound : ∀ o ∈ operations, o ∈ operationsOf kind entries) :
    operationsOf kind entries = {o | o ∈ operations} := by
  ext o
  constructor
  · intro ho
    obtain ⟨hinvoke, hcompletion⟩ := operationsOf_subset kind entries ho
    exact hcomplete _ hinvoke _ hcompletion ho
  · exact hsound o

/-- The operations of one kind can be listed in the order of their completions. -/
theorem exists_enumeration (kind : OpKind) (entries : List OpEntry) :
    ∃ order, Enumerates (operationsOf kind entries) order ∧
      order.Pairwise fun first second ↦ first.completion ≤ second.completion := by
  have hfinite : (operationsOf kind entries).Finite := by
    refine Set.Finite.subset (((Set.finite_Iio entries.length).prod
      (Set.finite_Iio entries.length)).image fun p ↦ (⟨p.1, p.2⟩ : Operation)) fun o ho ↦ ?_
    exact ⟨(o.invoke, o.completion), operationsOf_subset kind entries ho, rfl⟩
  refine ⟨hfinite.toFinset.toList.insertionSort fun first second ↦
    first.completion ≤ second.completion, ⟨?_, fun o ↦ ?_⟩, ?_⟩
  · exact (List.perm_insertionSort _ _).nodup_iff.mpr (Finset.nodup_toList _)
  · rw [List.mem_insertionSort]
    simp
  · exact List.pairwise_insertionSort _ _

/-- One operation completed before another was invoked. -/
def RealTime (first second : Operation) : Prop := first.completion < second.invoke

/-- Two operations of one process, the first issued before the second. -/
def ProgramOrder (entries : List OpEntry) (first second : Operation) : Prop :=
  first.invoke < second.invoke ∧ ∃ a b, entries[first.invoke]? = some a ∧
    entries[second.invoke]? = some b ∧ a.process = b.process

/-- The model state after an operation of the history. -/
def stepAt (M : SequentialModel) (entries : List OpEntry) (state : M.State) (o : Operation) :
    M.State :=
  match decodeAt M entries o with
  | some (op, _) => (M.step state op).1
  | none => state

/-- The model answers an operation with the response that the history observed. -/
def AnswersAt (M : SequentialModel) (entries : List OpEntry) (state : M.State) (o : Operation) :
    Prop :=
  ∃ op response, decodeAt M entries o = some (op, response) ∧
    (M.step state op).2.eq response = true

/-- The Invokes and completions of a history that belong together, did not fail and decode. -/
def closedOperations (M : SequentialModel) (entries : List OpEntry) : Set Operation :=
  {o | ∃ inv c, Closes entries o inv c ∧ c.kind ≠ .fail ∧
    (M.decode c.f.name inv.value c.value).isSome}

/-- The operations of an alternating history that did not fail and decode. -/
def spannedOperations (M : SequentialModel) (entries : List OpEntry) : Set Operation :=
  {o | ∃ inv c, Completes entries o inv c ∧ c.kind ≠ .fail ∧
    (M.decode c.f.name inv.value c.value).isSome}

/-- The operation of a span. -/
def Span.operation {Op : Type} (span : Span Op) : Operation := ⟨span.start, span.finish⟩

/-- The operation of the span at an index. -/
def operationAt {Op : Type} (spans : List (Span Op)) (i : ℕ) : Operation :=
  match spans[i]? with
  | some span => span.operation
  | none => ⟨0, 0⟩

theorem operationAt_eq {Op : Type} {spans : List (Span Op)} {i : ℕ} {span : Span Op}
    (h : spans[i]? = some span) : operationAt spans i = span.operation := by
  simp [operationAt, h]

/-- Distinct spans are distinct operations. Assumes: spans in strict order of their finishes. -/
theorem operationAt_injOn {Op : Type} {spans : List (Span Op)}
    (hsorted : spans.Pairwise fun first second ↦ first.finish < second.finish) :
    Set.InjOn (operationAt spans) {i | i < spans.length} := by
  intro i hi j hj heq
  simp only [Set.mem_ofPred_eq] at hi hj
  rw [operationAt_eq (List.getElem?_eq_getElem hi), operationAt_eq (List.getElem?_eq_getElem hj)]
    at heq
  have hfinish : spans[i].finish = spans[j].finish := congrArg Operation.completion heq
  rcases Nat.lt_trichotomy i j with hlt | rfl | hgt
  · have := List.pairwise_iff_getElem.mp hsorted i j hi hj hlt
    omega
  · rfl
  · have := List.pairwise_iff_getElem.mp hsorted j i hj hi hgt
    omega

/-- The spans of a history are its closed operations. -/
theorem image_operationAt (M : SequentialModel) (entries : List OpEntry) :
    operationAt (pairEntries M entries).spans ''
        {i | i < (pairEntries M entries).spans.length} = closedOperations M entries := by
  have hpaired := paired_pairEntries M entries
  ext o
  constructor
  · rintro ⟨i, hi, rfl⟩
    simp only [Set.mem_ofPred_eq] at hi
    rw [operationAt_eq (List.getElem?_eq_getElem hi)]
    obtain ⟨inv, c, hc, hfail, hdecode⟩ := (hpaired.mem_spans _).mp (List.getElem_mem hi)
    exact ⟨inv, c, hc, hfail, by simp [hdecode]⟩
  · rintro ⟨inv, c, hc, hfail, hdecode⟩
    obtain ⟨⟨op, response⟩, hdecode⟩ := Option.isSome_iff_exists.mp hdecode
    have hmem := (hpaired.mem_spans ⟨op, response, o.invoke, o.completion⟩).mpr
      ⟨inv, c, hc, hfail, hdecode⟩
    obtain ⟨i, hi, hget⟩ := List.mem_iff_getElem.mp hmem
    exact ⟨i, hi, by rw [operationAt_eq (List.getElem?_eq_getElem hi), hget]; rfl⟩

/-- The decoding of the operation of a span is the span's own. -/
theorem decodeAt_operationAt {entries : List OpEntry} {i : ℕ} {span : Span M.Op}
    (hspan : (pairEntries M entries).spans[i]? = some span) :
    decodeAt M entries (operationAt (pairEntries M entries).spans i) =
      some (span.op, span.response) := by
  obtain ⟨inv, c, hc, -, hdecode⟩ :=
    ((paired_pairEntries M entries).mem_spans span).mp (List.mem_of_getElem? hspan)
  rw [operationAt_eq hspan, Span.operation, decodeAt, hc.invoke_entry, hc.completion_entry]
  exact hdecode

/-- The verdict on any history: the closed operations are serializable, under real-time precedence
in real-time mode and under no precedence otherwise. -/
theorem check_isValid_closed_iff (oracle : LinearizabilityOracle M) (out : RunOutput) :
    (oracle.check out).isValid = true ↔
      Serializable (closedOperations M out.history.entries)
        (fun first second ↦ oracle.realTime = true ∧ RealTime first second)
        (stepAt M out.history.entries) (AnswersAt M out.history.entries) M.init := by
  have hpaired := paired_pairEntries M out.history.entries
  have hordered : ∀ span ∈ (pairEntries M out.history.entries).spans,
      span.start ≤ span.finish := by
    intro span hspan
    obtain ⟨inv, c, hc, -⟩ := (hpaired.mem_spans span).mp hspan
    exact hc.invoke_lt.le
  rw [LinearizabilityOracle.check_isValid, search_iff oracle.realTime hordered,
    ← image_operationAt, serializable_image_iff (operationAt_injOn hpaired.finish_sorted)]
  refine serializable_congr (fun i hi j hj ↦ ?_) (fun i hi state ↦ ?_) (fun i hi state ↦ ?_) _
  · have hgi := List.getElem?_eq_getElem hi
    have hgj := List.getElem?_eq_getElem hj
    simp [PrecedesSpan, RealTime, operationAt_eq hgi, operationAt_eq hgj, hgi, hgj,
      Span.operation]
  · have hgi := List.getElem?_eq_getElem hi
    simp [stepSpan, stepAt, decodeAt_operationAt hgi, hgi]
  · have hgi := List.getElem?_eq_getElem hi
    simp [AnswersSpan, AnswersAt, decodeAt_operationAt hgi, hgi]

/-- The verdict on an alternating history: the spanned operations are serializable, under
real-time precedence in real-time mode and under no precedence otherwise. -/
theorem check_isValid_iff (oracle : LinearizabilityOracle M) (out : RunOutput)
    (h : Alternates out.history.entries) :
    (oracle.check out).isValid = true ↔
      Serializable (spannedOperations M out.history.entries)
        (fun first second ↦ oracle.realTime = true ∧ RealTime first second)
        (stepAt M out.history.entries) (AnswersAt M out.history.entries) M.init := by
  have hset : closedOperations M out.history.entries =
      spannedOperations M out.history.entries := by
    simp only [closedOperations, spannedOperations, h.closes_iff]
  rw [check_isValid_closed_iff, hset]

/-- The model decodes every operation that completed with a given kind. -/
def Decodes (M : SequentialModel) (kind : OpKind) (entries : List OpEntry) : Prop :=
  ∀ o ∈ operationsOf kind entries, (decodeAt M entries o).isSome

/-- When the model decodes every successful and every indeterminate operation, these are the
spanned ones. -/
theorem spannedOperations_eq {entries : List OpEntry} (hok : Decodes M .ok entries)
    (hinfo : Decodes M .info entries) :
    spannedOperations M entries = operationsOf .ok entries ∪ operationsOf .info entries := by
  ext o
  constructor
  · rintro ⟨inv, c, hc, hfail, -⟩
    cases hkind : c.kind with
    | invoke => exact absurd hkind hc.completion_kind
    | ok => exact Or.inl ⟨inv, c, hc, hkind⟩
    | fail => exact absurd hkind hfail
    | info => exact Or.inr ⟨inv, c, hc, hkind⟩
  · rintro (hin | hin)
    · obtain ⟨inv, c, hc, hkind⟩ := hin
      exact ⟨inv, c, hc, by simp [hkind], by
        simpa [decodeAt_eq hc] using hok o ⟨inv, c, hc, hkind⟩⟩
    · obtain ⟨inv, c, hc, hkind⟩ := hin
      exact ⟨inv, c, hc, by simp [hkind], by
        simpa [decodeAt_eq hc] using hinfo o ⟨inv, c, hc, hkind⟩⟩

/-- Without an entry of a kind there is no operation of that kind. -/
theorem operationsOf_eq_empty {entries : List OpEntry} {kind : OpKind}
    (h : ∀ e ∈ entries, e.kind ≠ kind) : operationsOf kind entries = ∅ := by
  refine Set.eq_empty_of_forall_notMem ?_
  rintro o ⟨inv, c, hc, hkind⟩
  exact h c (List.mem_of_getElem? hc.completion_entry) hkind

/-- The model decodes every operation of a kind when it decodes every completion of that kind with
every Invoke. -/
theorem decodes_of_forall_mem {kind : OpKind} {entries : List OpEntry}
    (h : ∀ inv ∈ entries, ∀ c ∈ entries, c.kind = kind →
      (M.decode c.f.name inv.value c.value).isSome) : Decodes M kind entries := by
  rintro o ⟨inv, c, hc, hkind⟩
  rw [decodeAt_eq hc]
  exact h inv (List.mem_of_getElem? hc.invoke_entry) c
    (List.mem_of_getElem? hc.completion_entry) hkind

/-! ### Linearizability of definite histories -/

/-- Some total order of the successful operations respects real time and makes the model answer
every one of them with its observed response. -/
def Linearizable (M : SequentialModel) (entries : List OpEntry) : Prop :=
  Serializable (operationsOf .ok entries) RealTime (stepAt M entries) (AnswersAt M entries) M.init

/-- The linearizable mode is sound and complete. Assumes: an alternating history with no
indeterminate completion, in which the model decodes every successful operation. -/
theorem linearizable_check_iff (M : SequentialModel) (out : RunOutput)
    (halternates : Alternates out.history.entries)
    (hdefinite : ∀ e ∈ out.history.entries, e.kind ≠ .info)
    (hdecodes : Decodes M .ok out.history.entries) :
    ((linearizableOracle M).check out).isValid = true ↔ Linearizable M out.history.entries := by
  have hinfo := operationsOf_eq_empty hdefinite
  have hspanned := spannedOperations_eq hdecodes
    (fun o ho ↦ absurd (hinfo ▸ ho) (Set.notMem_empty o))
  rw [check_isValid_iff _ _ halternates, hspanned, hinfo, Set.union_empty]
  simp [linearizableOracle, Linearizable]

/-! ### The register of the test suite -/

/-- The operations of a register. -/
inductive RegOp
  | read
  | write (v : Int64)

/-- A read/write register holding an integer, zero initially. -/
def registerModel : SequentialModel where
  State := Int64
  Op := RegOp
  init := 0
  step s op :=
    match op with
    | .read => (s, ⟨.int s⟩)
    | .write v => (v, ⟨.int v⟩)
  decode f valueInvoke valueComplete :=
    if f = "write" then
      match valueInvoke with
      | .int v => some (.write v, ⟨.int v⟩)
      | _ => none
    else if f = "read" then
      match valueComplete with
      | .int v => some (.read, ⟨.int v⟩)
      | _ => none
    else none

/-- A register entry. -/
def registerEntry (index : UInt64) (kind : OpKind) (process : UInt64) (f : String)
    (value : Int64) : OpEntry :=
  ⟨index, .virtualNanos index.toInt64, kind, ⟨process⟩, ⟨f⟩, .int value⟩

/-- The output of a run with a given history. -/
def historyOutput (entries : List OpEntry) : RunOutput := ⟨⟨entries⟩, none, .new, ⟨0⟩⟩

/-- A write that overlaps a read of the old value. -/
def overlappingRead : List OpEntry :=
  [registerEntry 0 .invoke 0 "write" 1, registerEntry 1 .invoke 1 "read" 0,
    registerEntry 2 .ok 1 "read" 0, registerEntry 3 .ok 0 "write" 1]

/-- The overlapping read is linearizable: it takes effect before the write. -/
theorem overlappingRead_linearizable : Linearizable registerModel overlappingRead :=
  (linearizable_check_iff registerModel (historyOutput overlappingRead) (by decide) (by decide)
    (decodes_of_forall_mem (by decide))).mp (by decide +kernel)

end Propsim.Oracle
