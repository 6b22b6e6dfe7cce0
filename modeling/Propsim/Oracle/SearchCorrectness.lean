import Propsim.Foundation.MemoizedSearch
import Propsim.Foundation.SequentialSpec
import Propsim.Oracle.Linearizability

/-!
# The search decides serializability of the spans

`recurse` is the memoized depth-first search of the foundation library over pairs of a set of
linearized spans and a model state (`recurse_eq_searchFrom`), so its visited set never changes the
answer (`search_eq_backtrack`). The plain backtracking search then succeeds exactly when the spans
are serializable (`search_iff`): the earliest-finish filter admits a span exactly when no
unlinearized span finished before it started (`minFinish_lt_iff`).
-/

set_option autoImplicit false
set_option relaxedAutoImplicit false

namespace Propsim.Oracle

open Foundation

variable {M : SequentialModel}

/-- The search node reached by linearizing a span at a node, when that is allowed. -/
def candidate (M : SequentialModel) (realTime : Bool) (spans : List (Span M.Op))
    (node : List Bool × M.State) (span : Span M.Op × ℕ) : Option (List Bool × M.State) :=
  if node.1.getD span.2 true then none
  else if realTime && decide (minFinish spans node.1 < span.1.start) then none
  else if !(M.step node.2 span.1.op).2.eq span.1.response then none
  else some (node.1.set span.2 true, (M.step node.2 span.1.op).1)

/-- The search nodes reached from a node, in the order in which the loop tries them. -/
def successors (M : SequentialModel) (realTime : Bool) (spans : List (Span M.Op))
    (node : List Bool × M.State) : List (List Bool × M.State) :=
  spans.zipIdx.filterMap (candidate M realTime spans node)

/-- The checker's recursion is the memoized depth-first search. -/
theorem recurse_eq_searchFrom (realTime : Bool) (spans : List (Span M.Op)) (remaining : ℕ)
    (state : M.State) (done : List Bool) (visited : Finset (List Bool × M.State)) :
    recurse M realTime spans remaining state done visited =
      searchFrom (successors M realTime spans) remaining (done, state) visited := by
  induction remaining generalizing state done visited with
  | zero => rfl
  | succ remaining ih =>
    rw [recurse, searchFrom]
    split_ifs with hhit
    · rfl
    · rw [successors, ← foldl_eq_explore]
      congr 1
      funext answer span
      simp only [candidate]
      split_ifs <;> simp [ih]

/-- The number of spans not yet linearized at a node. -/
def undone (node : List Bool × M.State) : ℕ := node.1.count false

theorem undone_candidate {realTime : Bool} {spans : List (Span M.Op)}
    {node target : List Bool × M.State} {span : Span M.Op × ℕ}
    (h : candidate M realTime spans node span = some target) :
    undone node = undone target + 1 := by
  unfold candidate at h
  split_ifs at h with hdone
  obtain rfl := Option.some.inj h
  have hundone : node.1[span.2]? = some false := by
    cases hget : node.1[span.2]? with
    | none => simp [hget] at hdone
    | some b => simpa [hget] using hdone
  obtain ⟨hlt, hget⟩ := List.getElem?_eq_some_iff.mp hundone
  have hpositive : 0 < node.1.count false :=
    List.count_pos_iff.mpr (hget ▸ List.getElem_mem hlt)
  simp only [undone, List.count_set hlt, hget]
  simp
  omega

/-- The visited set never changes the answer of the search. -/
theorem search_eq_backtrack (realTime : Bool) (spans : List (Span M.Op)) :
    search M realTime spans = backtrack (successors M realTime spans) spans.length
      (List.replicate spans.length false, M.init) := by
  have hrank : ∀ node, ∀ target ∈ successors M realTime spans node,
      undone node = undone target + 1 := by
    intro node target htarget
    obtain ⟨span, _, hspan⟩ := List.mem_filterMap.mp htarget
    exact undone_candidate hspan
  have hsearch := searchFrom_fst hrank (List.replicate spans.length false, M.init)
  rw [show undone (List.replicate spans.length false, M.init) = spans.length by
    simp [undone]] at hsearch
  unfold search
  split_ifs with hempty
  · rw [hempty]
    rfl
  · rw [recurse_eq_searchFrom, hsearch]

/-! ### Spans in order -/

/-- The model state after the span at an index. -/
def stepSpan (M : SequentialModel) (spans : List (Span M.Op)) (state : M.State) (i : ℕ) :
    M.State :=
  match spans[i]? with
  | some span => (M.step state span.op).1
  | none => state

/-- The model answers the span at an index with the response that the span observed. -/
def AnswersSpan (M : SequentialModel) (spans : List (Span M.Op)) (state : M.State) (i : ℕ) :
    Prop :=
  ∃ span, spans[i]? = some span ∧ (M.step state span.op).2.eq span.response = true

/-- In real-time mode the span at one index must precede that at another when it finished before
the other started. -/
def PrecedesSpan {Op : Type} (realTime : Bool) (spans : List (Span Op)) (i j : ℕ) : Prop :=
  realTime = true ∧
    ∃ first second, spans[i]? = some first ∧ spans[j]? = some second ∧ first.finish < second.start

/-- The filter rejects a start exactly when some span not yet linearized finished before it.
Assumes: some span is not yet linearized. -/
theorem minFinish_lt_iff {Op : Type} {spans : List (Span Op)} {done : List Bool} {i : ℕ}
    {span : Span Op} (hspan : spans[i]? = some span) (hundone : done[i]? = some false)
    (start : ℕ) :
    minFinish spans done < start ↔
      ∃ (j : ℕ) (other : Span Op),
        spans[j]? = some other ∧ done[j]? = some false ∧ other.finish < start := by
  have hmem (j : ℕ) (other : Span Op) (hj : spans[j]? = some other)
      (hdone : done[j]? = some false) :
      other.finish ∈ (spans.zipIdx.filter fun s ↦ !done.getD s.2 true).map fun s ↦ s.1.finish := by
    refine List.mem_map.mpr ⟨(other, j), List.mem_filter.mpr ⟨?_, by simp [hdone]⟩, rfl⟩
    exact List.mem_zipIdx_iff_getElem?.mpr hj
  unfold minFinish
  cases hmin : ((spans.zipIdx.filter fun s ↦ !done.getD s.2 true).map fun s ↦ s.1.finish).min? with
  | none =>
    rw [List.min?_eq_none_iff] at hmin
    have := hmem i span hspan hundone
    rw [hmin] at this
    exact absurd this (List.not_mem_nil)
  | some least =>
    obtain ⟨hleast, hlower⟩ := List.min?_eq_some_iff.mp hmin
    rw [Option.getD_some]
    constructor
    · intro hlt
      obtain ⟨⟨other, j⟩, hother, rfl⟩ := List.mem_map.mp hleast
      obtain ⟨hzip, hnot⟩ := List.mem_filter.mp hother
      have hj : spans[j]? = some other := List.mem_zipIdx_iff_getElem?.mp hzip
      refine ⟨j, other, hj, ?_, hlt⟩
      cases hget : done[j]? with
      | none => simp [hget] at hnot
      | some b => simpa [hget] using hnot
    · rintro ⟨j, other, hj, hdone, hlt⟩
      exact lt_of_le_of_lt (hlower _ (hmem j other hj hdone)) hlt

/-- What an edge of the search does. Assumes: the spans do not finish before they start. A node
has a successor exactly for each span not yet linearized that nothing else not yet linearized must
precede and that the model answers. -/
theorem candidate_eq_some_iff {realTime : Bool} {spans : List (Span M.Op)}
    (hordered : ∀ span ∈ spans, span.start ≤ span.finish) {done : List Bool} {state : M.State}
    {span : Span M.Op} {i : ℕ} (hspan : spans[i]? = some span)
    {target : List Bool × M.State} :
    candidate M realTime spans (done, state) (span, i) = some target ↔
      done[i]? = some false ∧
        (∀ j, done[j]? = some false → j ≠ i → ¬ PrecedesSpan realTime spans j i) ∧
        AnswersSpan M spans state i ∧ target = (done.set i true, stepSpan M spans state i) := by
  have hanswers : AnswersSpan M spans state i ↔
      (M.step state span.op).2.eq span.response = true := by
    simp [AnswersSpan, hspan]
  have hstep : stepSpan M spans state i = (M.step state span.op).1 := by
    simp [stepSpan, hspan]
  rw [hanswers, hstep]
  have hdone : done.getD i true = false ↔ done[i]? = some false := by
    cases hget : done[i]? <;> simp [hget]
  unfold candidate
  by_cases hundone : done[i]? = some false
  · have hfilter : (realTime && decide (minFinish spans done < span.start)) = false ↔
        ∀ j, done[j]? = some false → j ≠ i → ¬ PrecedesSpan realTime spans j i := by
      cases realTime with
      | false => simp [PrecedesSpan]
      | true =>
        simp only [Bool.true_and, decide_eq_false_iff_not, minFinish_lt_iff hspan hundone]
        constructor
        · rintro hnone j hj - ⟨-, first, second, hfirst, hsecond, hlt⟩
          rw [hspan, Option.some.injEq] at hsecond
          exact hnone ⟨j, first, hfirst, hj, hsecond ▸ hlt⟩
        · rintro hall ⟨j, other, hother, hj, hlt⟩
          by_cases heq : j = i
          · -- a span does not finish before its own start
            rw [heq, hspan, Option.some.injEq] at hother
            have := hordered span (List.mem_of_getElem? hspan)
            rw [← hother] at hlt
            omega
          · exact hall j hj heq ⟨rfl, other, span, hother, hspan, hlt⟩
    rw [if_neg (by rw [hdone.mpr hundone]; exact Bool.false_ne_true)]
    split_ifs with hlate hmismatch
    · simp only [false_iff, not_and]
      intro _ hall
      exact absurd (hfilter.mpr hall) (by simp [hlate])
    · simp only [false_iff, not_and]
      intro _ _ hmatch
      simp [hmatch] at hmismatch
    · simp only [Option.some.injEq]
      constructor
      · rintro rfl
        exact ⟨hundone, hfilter.mp (by simpa using hlate), by simpa using hmismatch, rfl⟩
      · rintro ⟨-, -, -, rfl⟩
        rfl
  · rw [if_pos (by simpa using fun h ↦ hundone (hdone.mp h))]
    simp [hundone]

/-- The plain search from a node succeeds exactly when the spans not yet linearized are
serializable from the node's state. Assumes: the spans do not finish before they start. -/
theorem backtrack_iff {realTime : Bool} {spans : List (Span M.Op)}
    (hordered : ∀ span ∈ spans, span.start ≤ span.finish) (remaining : ℕ) (done : List Bool)
    (state : M.State) (hlength : done.length = spans.length)
    (hremaining : done.count false = remaining) :
    backtrack (successors M realTime spans) remaining (done, state) = true ↔
      Serializable {i | done[i]? = some false} (PrecedesSpan realTime spans)
        (stepSpan M spans) (AnswersSpan M spans) state := by
  induction remaining generalizing done state with
  | zero =>
    have hempty : {i : ℕ | done[i]? = some false} = ∅ := by
      refine Set.eq_empty_of_forall_notMem fun i hi ↦ ?_
      have hmem : false ∈ done := List.mem_of_getElem? hi
      exact List.count_eq_zero.mp hremaining hmem
    rw [hempty, serializable_iff_exists_first]
    simp [backtrack]
  | succ remaining ih =>
    have hnonempty : {i : ℕ | done[i]? = some false} ≠ ∅ := by
      have hpositive : 0 < done.count false := by omega
      obtain ⟨i, hi⟩ := List.mem_iff_getElem?.mp (List.count_pos_iff.mp hpositive)
      exact Set.Nonempty.ne_empty ⟨i, hi⟩
    rw [serializable_iff_exists_first, or_iff_right hnonempty, backtrack, List.any_eq_true]
    -- the node reached through a span marks exactly that span
    have hset (i : ℕ) (hi : done[i]? = some false) :
        {j | (done.set i true)[j]? = some false} = {j | done[j]? = some false} \ {i} := by
      ext j
      simp only [Set.mem_ofPred_eq, Set.mem_sdiff, Set.mem_singleton_iff, List.getElem?_set]
      split_ifs with heq hlt
      · simp [heq]
      · simp [heq]
      · simp [Ne.symm heq]
    have hcount (i : ℕ) (hi : done[i]? = some false) :
        (done.set i true).count false = remaining := by
      obtain ⟨hlt, hget⟩ := List.getElem?_eq_some_iff.mp hi
      simp [List.count_set hlt, hget, hremaining]
    constructor
    · rintro ⟨target, htarget, hsuccess⟩
      obtain ⟨⟨span, i⟩, hzip, hcandidate⟩ := List.mem_filterMap.mp htarget
      have hspan : spans[i]? = some span := List.mem_zipIdx_iff_getElem?.mp hzip
      obtain ⟨hundone, hearliest, hanswers, rfl⟩ :=
        (candidate_eq_some_iff hordered hspan).mp hcandidate
      refine ⟨i, hundone, hearliest, hanswers, ?_⟩
      rw [← hset i hundone]
      exact (ih _ _ (by simpa using hlength) (hcount i hundone)).mp hsuccess
    · rintro ⟨i, hundone, hearliest, hanswers, hrest⟩
      obtain ⟨span, hspan, -⟩ := id hanswers
      refine ⟨(done.set i true, stepSpan M spans state i), ?_, ?_⟩
      · exact List.mem_filterMap.mpr ⟨(span, i), List.mem_zipIdx_iff_getElem?.mpr hspan,
          (candidate_eq_some_iff hordered hspan).mpr ⟨hundone, hearliest, hanswers, rfl⟩⟩
      · rw [← hset i hundone] at hrest
        exact (ih _ _ (by simpa using hlength) (hcount i hundone)).mpr hrest

/-- The checker's search succeeds exactly when the spans are serializable under the precedence of
its mode. Assumes: the spans do not finish before they start. -/
theorem search_iff (realTime : Bool) {spans : List (Span M.Op)}
    (hordered : ∀ span ∈ spans, span.start ≤ span.finish) :
    search M realTime spans = true ↔
      Serializable {i | i < spans.length} (PrecedesSpan realTime spans) (stepSpan M spans)
        (AnswersSpan M spans) M.init := by
  rw [search_eq_backtrack, backtrack_iff hordered _ _ _ (by simp) (by simp)]
  have hset : {i | (List.replicate spans.length false)[i]? = some false} =
      {i | i < spans.length} := by
    ext i
    simp [List.getElem?_replicate]
  rw [hset]

end Propsim.Oracle
