import Propsim.Core.Oracle
import Mathlib.Data.Finset.Prod

/-!
# The linearizability checker

`model.rs` and `linearizability.rs`: the user-supplied sequential model, the pairing of Invoke and
completion entries into spans, and the depth-first search for an order of the spans, with its
earliest-finish filter and its visited set. The loops of the source are folds whose accumulator
carries the visited set and whether the loop has already returned.
-/

set_option autoImplicit false
set_option relaxedAutoImplicit false

namespace Propsim.Oracle

open Foundation Interchange Propsim.Core

/-- The response of a sequential operation. -/
structure Response where
  value : Value

/-- The derived `PartialEq` of `Response`. -/
def Response.eq (a b : Response) : Bool := a.value.eq b.value

/-- An executable sequential model with a lawfully comparable state. -/
structure SequentialModel where
  State : Type
  Op : Type
  [decidableEq : DecidableEq State]
  init : State
  step : State → Op → State × Response
  decode : String → Value → Value → Option (Op × Response)

instance (M : SequentialModel) : DecidableEq M.State := M.decidableEq

/-- A completed operation span: an Invoke paired with its completion. -/
structure Span (Op : Type) where
  op : Op
  response : Response
  /-- Position of the Invoke in the history. -/
  start : ℕ
  /-- Position of the completion in the history. -/
  finish : ℕ

/-- The configured checker. -/
structure LinearizabilityOracle (M : SequentialModel) where
  realTime : Bool
  name : String

/-- A linearizability oracle, in real-time mode. -/
def linearizableOracle (M : SequentialModel) : LinearizabilityOracle M := ⟨true, "linearizable"⟩

/-- A sequential-consistency oracle: no real-time ordering constraint. -/
def sequentiallyConsistentOracle (M : SequentialModel) : LinearizabilityOracle M :=
  ⟨false, "sequentially-consistent"⟩

/-! ### Pairing -/

/-- The position of the last element with a property. -/
def rposition {α : Type} (p : α → Bool) (items : List α) : Option ℕ :=
  (items.reverse.findIdx? p).map fun fromEnd ↦ items.length - 1 - fromEnd

/-- The state of the pairing loop: the open Invokes with their positions, and the spans so far. -/
structure Pairing (Op : Type) where
  opened : List (ℕ × OpEntry)
  spans : List (Span Op)

/-- One entry of the pairing loop. A completion closes the most recent open Invoke of its process;
a failed operation and one that does not decode yield no span. -/
def pairEntry (M : SequentialModel) (state : Pairing M.Op) (entry : OpEntry × ℕ) :
    Pairing M.Op :=
  let e := entry.1
  let pos := entry.2
  match e.kind with
  | .invoke => { state with opened := state.opened ++ [(pos, e)] }
  | .ok | .fail | .info =>
    match rposition (fun o ↦ o.2.process == e.process) state.opened with
    | none => state
    | some idx =>
      match state.opened[idx]? with
      | none => state
      | some (start, inv) =>
        let state := { state with opened := state.opened.eraseIdx idx }
        if e.kind = .fail then state
        else
          match M.decode e.f.name inv.value e.value with
          | none => state
          | some (op, response) =>
            { state with spans := state.spans ++ [⟨op, response, start, pos⟩] }

/-- The pairing loop over a list of entries. -/
def pairEntries (M : SequentialModel) (entries : List OpEntry) : Pairing M.Op :=
  entries.zipIdx.foldl (pairEntry M) ⟨[], []⟩

/-- Pairs Invoke and completion entries per process into operation spans. -/
def parseSpans (M : SequentialModel) (entries : List OpEntry) : Except String (List (Span M.Op)) :=
  .ok (pairEntries M entries).spans

/-! ### Search -/

/-- The largest `usize`. -/
def usizeMax : ℕ := 2 ^ 64 - 1

/-- The earliest finish among the spans not yet linearized. -/
def minFinish {Op : Type} (spans : List (Span Op)) (done : List Bool) : ℕ :=
  (((spans.zipIdx.filter fun s ↦ !done.getD s.2 true).map fun s ↦ s.1.finish).min?).getD usizeMax

/-- Depth-first search from a set of linearized spans and a model state. -/
def recurse (M : SequentialModel) (realTime : Bool) (spans : List (Span M.Op)) :
    ℕ → M.State → List Bool → Finset (List Bool × M.State) → Bool × Finset (List Bool × M.State)
  | 0, _, _, visited => (true, visited)
  | remaining + 1, state, done, visited =>
    if (done, state) ∈ visited then (false, visited)
    else
      spans.zipIdx.foldl (fun answer span ↦
        if answer.1 then answer
        else if done.getD span.2 true then (false, answer.2)
        else if realTime && decide (minFinish spans done < span.1.start) then (false, answer.2)
        else
          let next := M.step state span.1.op
          if !next.2.eq span.1.response then (false, answer.2)
          else recurse M realTime spans remaining next.1 (done.set span.2 true) answer.2)
        (false, insert (done, state) visited)

/-- Depth-first linearization search. -/
def search (M : SequentialModel) (realTime : Bool) (spans : List (Span M.Op)) : Bool :=
  if spans.length = 0 then true
  else (recurse M realTime spans spans.length M.init (List.replicate spans.length false) ∅).1

namespace LinearizabilityOracle

variable {M : SequentialModel}

/-- The verdict on a run output. -/
def check (oracle : LinearizabilityOracle M) (out : RunOutput) : Verdict :=
  match parseSpans M out.history.entries with
  | .error msg => .invalid [.withDetail "history-decode-failed" (.plain msg)]
  | .ok spans =>
    if search M oracle.realTime spans then .valid
    else
      (Verdict.invalid
        [.new (if oracle.realTime then "non-linearizable" else "not-sequentially-consistent")])
        |>.withWitness (.text (.plain
          ("no valid " ++ oracle.name ++ " ordering of " ++ toString spans.length ++
            " operations")))

/-- The checker as an oracle of a backend. -/
def toOracle (oracle : LinearizabilityOracle M) : Core.Oracle :=
  ⟨oracle.name, .history, oracle.check⟩

/-- A verdict is valid exactly when the search over the paired spans succeeds. -/
theorem check_isValid (oracle : LinearizabilityOracle M) (out : RunOutput) :
    (oracle.check out).isValid =
      search M oracle.realTime (pairEntries M out.history.entries).spans := by
  simp only [check, parseSpans]
  split_ifs with h <;> simp [h]

end LinearizabilityOracle

end Propsim.Oracle
