import Mathlib.Algebra.Order.Field.Basic
import Mathlib.Algebra.Order.Field.Rat
import Propsim.Foundation.IndependentParts
import Propsim.Oracle.Verdicts

/-!
# Checking one key at a time

A sequential model is keyed when every operation reads and changes the part of the state under its
key only, as a store does. A checker for one key is that of the part, with a decoder that rejects
the operations of the other keys. Whatever the history, the checker of the whole model accepts it
exactly when the checker of each key does, in both modes (`check_isValid_keyed`). So a history of
many keys need not be searched as one.
-/

set_option autoImplicit false
set_option relaxedAutoImplicit false

namespace Propsim.Oracle

open Foundation Interchange Propsim.Core

variable {M : SequentialModel}

/-! ### Spans as operations -/

/-- A span goes from an Invoke of a history to the completion that closes it. -/
def Spans {Op : Type} (entries : List OpEntry) (span : Span Op) : Prop :=
  ∃ inv c, Closes entries span.operation inv c

theorem spans_of_mem {entries : List OpEntry} {span : Span M.Op}
    (h : span ∈ (pairEntries M entries).spans) : Spans entries span := by
  obtain ⟨inv, c, hcloses, -⟩ := ((paired_pairEntries M entries).mem_spans span).mp h
  exact ⟨inv, c, hcloses⟩

/-- The search over distinct spans succeeds exactly when they are serializable under the precedence
of its mode. -/
theorem search_iff_serializable (realTime : Bool) {spans : List (Span M.Op)}
    (hordered : ∀ span ∈ spans, span.start ≤ span.finish) (hnodup : spans.Nodup) :
    search M realTime spans = true ↔
      Serializable {span | span ∈ spans}
        (fun first second ↦ realTime = true ∧ first.finish < second.start)
        (fun state span ↦ (M.step state span.op).1)
        (fun state span ↦ (M.step state span.op).2.eq span.response = true) M.init := by
  -- The precedence, the step and the answers at an index are those of the span there, if any.
  let before (first second : Option (Span M.Op)) : Prop := realTime = true ∧
    ∃ a b, first = some a ∧ second = some b ∧ a.finish < b.start
  let step (state : M.State) (span : Option (Span M.Op)) : M.State :=
    span.elim state fun span ↦ (M.step state span.op).1
  let answers (state : M.State) (span : Option (Span M.Op)) : Prop :=
    ∃ a, span = some a ∧ (M.step state a.op).2.eq a.response = true
  have hstep : stepSpan M spans = fun state i ↦ step state spans[i]? := by
    funext state i
    unfold stepSpan
    cases spans[i]? <;> rfl
  have hinjective : Set.InjOn (fun i ↦ spans[i]?) {i | i < spans.length} :=
    fun i hi j _ heq ↦ (List.getElem?_inj hi hnodup).mp heq
  have himage : (fun i ↦ spans[i]?) '' {i | i < spans.length} = some '' {span | span ∈ spans} := by
    ext span
    constructor
    · rintro ⟨i, hi, rfl⟩
      exact ⟨spans[i], List.getElem_mem hi, (List.getElem?_eq_getElem hi).symm⟩
    · rintro ⟨span, hspan, rfl⟩
      obtain ⟨i, hi⟩ := List.mem_iff_getElem?.mp hspan
      exact ⟨i, (List.getElem?_eq_some_iff.mp hi).1, hi⟩
  rw [search_iff realTime hordered, hstep]
  refine (serializable_image_iff hinjective before step answers M.init).symm.trans ?_
  rw [himage, serializable_image_iff (Option.some_injective _).injOn before step answers M.init]
  exact serializable_congr (by simp [before]) (fun _ _ _ ↦ rfl) (by simp [answers]) M.init

/-! ### Keyed models -/

/-- A model whose operations read and change the part of the state under their key only. -/
structure Keyed (M : SequentialModel) (K : Type) where
  key : M.Op → K
  Part : Type
  [decidableEq : DecidableEq Part]
  part : M.State → K → Part
  step : Part → M.Op → Part × Response
  own : ∀ state op, part (M.step state op).1 (key op) = (step (part state (key op)) op).1
  others : ∀ state op k, k ≠ key op → part (M.step state op).1 k = part state k
  response_eq : ∀ state op, (M.step state op).2 = (step (part state (key op)) op).2

namespace Keyed

variable {K : Type} [DecidableEq K]

/-- The model of one key: its decoder rejects the operations of the other keys. -/
def model (keyed : Keyed M K) (k : K) : SequentialModel where
  State := keyed.Part
  Op := M.Op
  decidableEq := keyed.decidableEq
  init := keyed.part M.init k
  step := keyed.step
  decode f valueInvoke valueComplete :=
    (M.decode f valueInvoke valueComplete).filter fun decoded ↦ keyed.key decoded.1 = k

/-- The checker of one key, in the mode of a checker of the whole model. -/
def oracle (keyed : Keyed M K) (whole : LinearizabilityOracle M) (k : K) :
    LinearizabilityOracle (keyed.model k) :=
  ⟨whole.realTime, whole.name⟩

/-- The spans that the checker of a key pairs are those of its key. -/
theorem mem_spans_iff (keyed : Keyed M K) (k : K) (entries : List OpEntry) (span : Span M.Op) :
    span ∈ (pairEntries (keyed.model k) entries).spans ↔
      span ∈ (pairEntries M entries).spans ∧ keyed.key span.op = k := by
  have hpart := (paired_pairEntries (keyed.model k) entries).mem_spans span
  refine hpart.trans ?_
  rw [(paired_pairEntries M entries).mem_spans span]
  simp only [model, Option.filter_eq_some_iff, decide_eq_true_eq]
  constructor
  · rintro ⟨inv, c, hcloses, hfail, hdecode, hkey⟩
    exact ⟨⟨inv, c, hcloses, hfail, hdecode⟩, hkey⟩
  · rintro ⟨⟨inv, c, hcloses, hfail, hdecode⟩, hkey⟩
    exact ⟨inv, c, hcloses, hfail, hdecode, hkey⟩

omit [DecidableEq K] in
/-- The spans are operations on an object that is made of the keys. -/
theorem composed (keyed : Keyed M K) :
    Composed (fun state (span : Span M.Op) ↦ (M.step state span.op).1)
      (fun state span ↦ (M.step state span.op).2.eq span.response = true)
      (fun span ↦ keyed.key span.op) keyed.part
      (fun state span ↦ (keyed.step state span.op).1)
      fun state span ↦ (keyed.step state span.op).2.eq span.response = true where
  own state span := keyed.own state span.op
  others state span k hk := keyed.others state span.op k hk
  answers_iff state span := by rw [keyed.response_eq]

end Keyed

/-! ### Spans as intervals -/

section Intervals

variable {Op : Type} (realTime : Bool)

/-- When a span opens: at its Invoke. Without the precedence of real time all spans lie together. -/
def Span.opens (span : Span Op) : ℚ := if realTime then span.start else 0

/-- When a span closes. -/
def Span.closes (span : Span Op) : ℚ := if realTime then span.finish else 1

/-- The precedence of a mode is that of the intervals. -/
theorem closes_lt_opens_iff (first second : Span Op) :
    first.closes realTime < second.opens realTime ↔
      realTime = true ∧ first.finish < second.start := by
  cases realTime <;> simp [Span.opens, Span.closes]

theorem Spans.opens_lt_closes {entries : List OpEntry} {span : Span Op} (h : Spans entries span) :
    span.opens realTime < span.closes realTime := by
  obtain ⟨inv, c, hcloses⟩ := h
  cases realTime with
  | false => simp [Span.opens, Span.closes]
  | true => simpa [Span.opens, Span.closes, Span.operation] using hcloses.invoke_lt

/-- No entry is an Invoke and a completion. -/
theorem Spans.opens_ne_closes {entries : List OpEntry} {first second : Span Op}
    (h : Spans entries first) (h' : Spans entries second) :
    first.opens realTime ≠ second.closes realTime := by
  obtain ⟨inv, c, hcloses⟩ := h
  obtain ⟨inv', c', hcloses'⟩ := h'
  cases realTime with
  | false => simp [Span.opens, Span.closes]
  | true =>
    simp only [Span.opens, Span.closes, if_true, ne_eq, Nat.cast_inj]
    intro hsame
    have hentry : some inv = some c' := by
      rw [← hcloses.invoke_entry, ← hcloses'.completion_entry]
      exact congrArg _ hsame
    exact hcloses'.completion_kind (Option.some.inj hentry ▸ hcloses.invoke_kind)

/-- A checker accepts a history exactly when its spans are serializable as intervals. -/
theorem check_isValid_iff_intervals (oracle : LinearizabilityOracle M) (out : RunOutput) :
    (oracle.check out).isValid = true ↔
      Serializable {span | span ∈ (pairEntries M out.history.entries).spans}
        (fun first second ↦ first.closes oracle.realTime < second.opens oracle.realTime)
        (fun state span ↦ (M.step state span.op).1)
        (fun state span ↦ (M.step state span.op).2.eq span.response = true) M.init := by
  rw [LinearizabilityOracle.check_isValid, search_iff_serializable]
  · simp only [closes_lt_opens_iff]
  · intro span hspan
    obtain ⟨inv, c, hcloses⟩ := spans_of_mem hspan
    exact hcloses.invoke_lt.le
  · exact (paired_pairEntries M out.history.entries).finish_sorted.imp
      fun hlt heq ↦ (heq ▸ hlt).ne rfl

end Intervals

/-- The checker of a keyed model accepts a history exactly when the checker of each key does. It is
so in both modes, and for every history. -/
theorem check_isValid_keyed {K : Type} [DecidableEq K] (keyed : Keyed M K)
    (whole : LinearizabilityOracle M) (out : RunOutput) :
    (whole.check out).isValid = true ↔
      ∀ k, ((keyed.oracle whole k).check out).isValid = true := by
  rw [check_isValid_iff_intervals, keyed.composed.serializable_iff (List.finite_toSet _)
    (fun span hspan ↦ (spans_of_mem hspan).opens_lt_closes _)
    (fun first hfirst second hsecond ↦ (spans_of_mem hfirst).opens_ne_closes _
      (spans_of_mem hsecond))]
  refine forall_congr' fun k ↦ ?_
  have hset : {span | span ∈ (pairEntries M out.history.entries).spans ∧ keyed.key span.op = k} =
      {span | span ∈ (pairEntries (keyed.model k) out.history.entries).spans} :=
    Set.ext fun span ↦ (keyed.mem_spans_iff k out.history.entries span).symm
  rw [check_isValid_iff_intervals, ← hset]
  exact Iff.rfl

/-! ### Two registers -/

/-- Two registers, one for each truth value: an operation carries its key. -/
def registersModel : SequentialModel where
  State := Bool → Int64
  Op := Bool × RegOp
  init _ := registerModel.init
  step registers op :=
    let next := registerModel.step (registers op.1) op.2
    (Function.update registers op.1 next.1, next.2)
  decode f valueInvoke valueComplete :=
    match valueInvoke with
    | .list [.bool key, argument] =>
      (registerModel.decode f argument valueComplete).map fun decoded ↦
        ((key, decoded.1), decoded.2)
    | _ => none

/-- The two registers are independent. -/
def registersKeyed : Keyed registersModel Bool where
  key op := op.1
  Part := Int64
  part registers key := registers key
  step register op := registerModel.step register op.2
  own _ _ := Function.update_self _ _ _
  others _ _ _ hk := Function.update_of_ne hk _ _
  response_eq _ _ := rfl

/-- An entry of the two registers. -/
def registersEntry (index : UInt64) (kind : OpKind) (process : UInt64) (f : String) (key : Bool)
    (value : Int64) : OpEntry :=
  match kind with
  | .invoke => ⟨index, .virtualNanos index.toInt64, kind, ⟨process⟩, ⟨f⟩,
      .list [.bool key, .int value]⟩
  | _ => ⟨index, .virtualNanos index.toInt64, kind, ⟨process⟩, ⟨f⟩, .int value⟩

/-- A write of the second register, and then reads of both, of which one misses the write. -/
def missedWrite : List OpEntry :=
  [registersEntry 0 .invoke 0 "write" true 1, registersEntry 1 .ok 0 "write" true 1,
    registersEntry 2 .invoke 0 "read" false 0, registersEntry 3 .invoke 1 "read" true 0,
    registersEntry 4 .ok 1 "read" true 0, registersEntry 5 .ok 0 "read" false 0]

/-- The history is rejected, and it is the second register that rejects it. -/
example :
    ((linearizableOracle registersModel).check (historyOutput missedWrite)).isValid = false ∧
      ((registersKeyed.oracle (linearizableOracle registersModel) false).check
        (historyOutput missedWrite)).isValid = true ∧
      ((registersKeyed.oracle (linearizableOracle registersModel) true).check
        (historyOutput missedWrite)).isValid = false := by
  decide +kernel

end Propsim.Oracle
