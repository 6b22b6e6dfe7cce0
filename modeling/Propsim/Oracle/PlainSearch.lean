import Propsim.Oracle.SearchCorrectness

/-!
# The search without its visited set

The plain backtracking search tries every span that may be linearized next and remembers nothing. It
gives the answer of the checker's search on every list of spans, whether or not they come from a
history: a pair in the visited set has been explored in vain, or it is an ancestor, which has more
spans left and is not met again. Both searches succeed exactly when some order linearizes all spans,
each of them callable and answered where it stands.
-/

set_option autoImplicit false
set_option relaxedAutoImplicit false

namespace Propsim.Oracle

open Foundation

variable {M : SequentialModel}

/-- A span may be linearized next: it has not been linearized, it is callable, and the model answers
it with the response that it observed. -/
def mayExtend (M : SequentialModel) (realTime : Bool) (spans : List (Span M.Op)) (state : M.State)
    (done : List Bool) (span : Span M.Op × ℕ) : Bool :=
  !done.getD span.2 true && !(realTime && decide (minFinish spans done < span.1.start)) &&
    (M.step state span.1.op).2.eq span.1.response

/-- Backtracking from a set of linearized spans and a model state, over every span that may be
linearized next. -/
def plainRecurse (M : SequentialModel) (realTime : Bool) (spans : List (Span M.Op)) :
    ℕ → M.State → List Bool → Bool
  | 0, _, _ => true
  | remaining + 1, state, done =>
    spans.zipIdx.any fun span ↦ mayExtend M realTime spans state done span &&
      plainRecurse M realTime spans remaining (M.step state span.1.op).1 (done.set span.2 true)

/-- The search without a visited set. -/
def plainSearch (M : SequentialModel) (realTime : Bool) (spans : List (Span M.Op)) : Bool :=
  plainRecurse M realTime spans spans.length M.init (List.replicate spans.length false)

theorem candidate_eq (realTime : Bool) (spans : List (Span M.Op)) (state : M.State)
    (done : List Bool) (span : Span M.Op × ℕ) :
    candidate M realTime spans (done, state) span =
      if mayExtend M realTime spans state done span then
        some (done.set span.2 true, (M.step state span.1.op).1)
      else none := by
  have hguards (linearized late answered : Bool) (target : List Bool × M.State) :
      (if linearized then none else if late then none else if !answered then none
        else some target) = if !linearized && !late && answered then some target else none := by
    cases linearized <;> cases late <;> cases answered <;> rfl
  exact hguards _ _ _ _

theorem plainRecurse_eq_backtrack (realTime : Bool) (spans : List (Span M.Op)) (remaining : ℕ)
    (state : M.State) (done : List Bool) :
    plainRecurse M realTime spans remaining state done =
      backtrack (successors M realTime spans) remaining (done, state) := by
  induction remaining generalizing state done with
  | zero => rfl
  | succ remaining ih =>
    rw [plainRecurse, backtrack, successors, List.any_filterMap]
    congr 1
    funext span
    rw [candidate_eq, ih]
    cases mayExtend M realTime spans state done span with
    | false => rfl
    | true => rfl

/-- The visited set never changes the answer: on every list of spans, in both modes, the search and
the plain search agree. -/
theorem search_eq_plainSearch (M : SequentialModel) (realTime : Bool) (spans : List (Span M.Op)) :
    search M realTime spans = plainSearch M realTime spans := by
  rw [search_eq_backtrack, plainSearch, plainRecurse_eq_backtrack]

/-! ### Orders -/

/-- The spans of an order, given with their indices, may be linearized one after the other. -/
def Extends (M : SequentialModel) (realTime : Bool) (spans : List (Span M.Op)) :
    List (Span M.Op × ℕ) → M.State → List Bool → Prop
  | [], _, _ => True
  | span :: rest, state, done => span ∈ spans.zipIdx ∧
      mayExtend M realTime spans state done span = true ∧
      Extends M realTime spans rest (M.step state span.1.op).1 (done.set span.2 true)

/-- Backtracking succeeds exactly when some order linearizes all the spans that remain. -/
theorem plainRecurse_iff {realTime : Bool} {spans : List (Span M.Op)} {remaining : ℕ}
    {state : M.State} {done : List Bool} :
    plainRecurse M realTime spans remaining state done = true ↔
      ∃ order, order.length = remaining ∧ Extends M realTime spans order state done := by
  induction remaining generalizing state done with
  | zero =>
    refine iff_of_true rfl ⟨[], rfl, trivial⟩
  | succ remaining ih =>
    simp only [plainRecurse, List.any_eq_true, Bool.and_eq_true, ih]
    constructor
    · rintro ⟨span, hspan, hmay, order, hlength, hextends⟩
      exact ⟨span :: order, by rw [List.length_cons, hlength], hspan, hmay, hextends⟩
    · rintro ⟨order, hlength, hextends⟩
      obtain ⟨span, rest, rfl⟩ := List.exists_cons_of_length_eq_add_one hlength
      obtain ⟨hspan, hmay, hrest⟩ := hextends
      exact ⟨span, hspan, hmay, rest, Nat.succ.inj hlength, hrest⟩

/-- The search succeeds exactly when some order linearizes all spans. -/
theorem search_eq_true_iff {realTime : Bool} {spans : List (Span M.Op)} :
    search M realTime spans = true ↔ ∃ order, order.length = spans.length ∧
      Extends M realTime spans order M.init (List.replicate spans.length false) := by
  rw [search_eq_backtrack, ← plainRecurse_eq_backtrack, plainRecurse_iff]

end Propsim.Oracle
