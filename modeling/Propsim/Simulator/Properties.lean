import Propsim.Simulator.Run

/-!
# Property evaluation

`properties.rs`: each property is evaluated on the recorded frames of a finished run, with the
history of the whole run in every frame.
-/

set_option autoImplicit false
set_option relaxedAutoImplicit false

namespace Propsim.Simulator

open Foundation Interchange Propsim.Core

variable {S : Type}

/-- The virtual time of a run event that a deadline event names. -/
def anchors : Event → RunEvent → Option Duration
  | .networkHealed, .networkHealed t => some t
  | .nodeRejoined, .nodeRejoined t _ => some t
  | _, _ => none

/-- The anchor of a bounded-liveness deadline: the first named event, or the start of the run. -/
def anchorTime (after : Option Event) (events : List RunEvent) : Duration :=
  match after with
  | none => .zero
  | some event => (events.findSome? (anchors event)).getD .zero

/-- The predicate of a property in one frame of a trace. -/
def evalFrame (prop : Property S) (trace : WorldTrace S) (frame : Duration × List S) : Bool :=
  prop.predicate ⟨frame.2, trace.history, frame.1⟩

/-- The verdict on one property. -/
def evaluateOne (prop : Property S) (trace : WorldTrace S) (events : List RunEvent) :
    Except Halt Verdict :=
  match prop.kind with
  | .always =>
    match trace.frames.find? fun frame ↦ !evalFrame prop trace frame with
    | some (t, _) =>
      .ok ((Verdict.invalid [.withDetail "invariant-violated" (.falseAt prop.name t)]).withWitness
        (.text (.violatedAt prop.name t)))
    | none => .ok .valid
  | .sometimes =>
    if trace.frames.any (evalFrame prop trace) then .ok .valid
    else
      .ok (.invalid [.withDetail "reachability-unmet"
        (.plain ("`" ++ prop.name ++ "` never held in any state"))])
  | .eventuallyWithin deadline => do
    let t0 := anchorTime prop.after events
    let hi ← addDuration t0 deadline
    if trace.frames.any fun frame ↦
        if frame.1 < t0 ∨ hi < frame.1 then false else evalFrame prop trace frame then
      pure (Verdict.valid.withWitness (.text (.plain "deadline evaluated against virtual time")))
    else
      pure (.invalid [.withDetail "deadline-exceeded"
        (.notWithin prop.name deadline prop.after)])

/-- One verdict for each property, tagged with its name. -/
def evaluateProperties (properties : List (Property S)) (trace : WorldTrace S)
    (events : List RunEvent) : Except Halt (List NamedVerdict) :=
  properties.mapM fun prop ↦ do
    let verdict ← evaluateOne prop trace events
    pure ⟨prop.name, verdict⟩

end Propsim.Simulator
