import Propsim.Foundation.NumberText
import Propsim.Simulator.Properties

/-!
# Driving a plan

`drive`, `drive_erased` and the shrinking of `propsim-sim/lib.rs`, the parsing of `seed.rs`, and the
`Run` trait of the facade. The environment variable `PROPSIM_SEED` is a parameter, and so is the
fuel of the main loop, which every run of a drive is given.
-/

set_option autoImplicit false
set_option relaxedAutoImplicit false

namespace Propsim.Simulator

open Foundation Interchange Propsim.Core

/-! ### Seeds -/

/-- Parses a seed: `0x` or `0X` and hexadecimal digits, or decimal digits. -/
def parseSeed (s : String) : Option Seed :=
  let text := trim s.toList
  let parsed :=
    match text with
    | '0' :: 'x' :: hex => parseU64 16 hex
    | '0' :: 'X' :: hex => parseU64 16 hex
    | decimal => parseU64 10 decimal
  parsed.map Seed.mk

/-- The seed of the run at an index, with the `PROPSIM_SEED` override at index zero. -/
def effectiveSeed (propsimSeed : Option String) (s : ℕ) : Seed :=
  let derived : Seed := ⟨(SimRng.new (0x5EED0000 ^^^ .ofNat s)).next.1⟩
  if s = 0 then (propsimSeed.bind parseSeed).getD derived else derived

/-! ### Shrinking -/

section Typed

variable {N : Node}

/-- The output of a typed run for the history oracles. -/
def TypedRun.output (run : TypedRun N) (seed : Seed) : RunOutput :=
  ⟨run.history, none, .new, seed⟩

/-- One verdict for each oracle, tagged with its name. -/
def oracleVerdicts (backend : Backend) (out : RunOutput) : List NamedVerdict :=
  backend.oracles.map fun o ↦ ⟨o.name, o.check out⟩

/-- The frozen operations of a run, recovered from its recorded Invokes. -/
def collectOps (run : TypedRun N) : List FrozenOp :=
  (run.history.entries.filter fun e ↦ e.kind = .invoke).map fun e ↦ .new ⟨e.process.id⟩ e.value

/-- A copy of plan data with the operation stream pinned by a replay scenario. -/
def dataWithOps (data : PlanData) (ops : List FrozenOp) : PlanData :=
  { data with replay := some (.new ops (data.faults.getD .swarm)) }

/-- A check of a given name rejects a run. -/
def rejects (properties : List (Property N.State)) (backend : Backend) (run : TypedRun N)
    (seed : Seed) (failedName : String) : Except Halt Bool := do
  let verdicts ← evaluateProperties properties run.worldTrace run.events
  if verdicts.any fun nv ↦ nv.name == failedName && !nv.verdict.isValid then pure true
  else
    pure (backend.oracles.any fun o ↦
      o.name == failedName && !(o.check (run.output seed)).isValid)

/-- A check of a given name still fails on a candidate operation stream. -/
def stillFails (fuel : ℕ) (data : PlanData) (nodeDef : Option NodeDef)
    (codec : Option (ClientCodec N)) (properties : List (Property N.State)) (backend : Backend)
    (seed : Seed) (failedName : String) (ops : List FrozenOp) : Except Halt Bool := do
  match ← runDeterministic fuel (dataWithOps data ops) nodeDef none codec seed with
  | .error _ => pure false
  | .ok run => rejects properties backend run seed failedName

/-- Drops operations from the end of a stream as long as the check fails on what is left. -/
def shrinkLoop (fails : List FrozenOp → Except Halt Bool) (full : List FrozenOp) :
    ℕ → List FrozenOp → Except Halt (List FrozenOp)
  | 0, best => .ok best
  | len + 1, best => do
    let candidate := full.take len
    if ← fails candidate then shrinkLoop fails full len candidate else pure best

/-- The shrunk scenario of a violation. -/
def shrinkScenario (fuel : ℕ) (data : PlanData) (nodeDef : Option NodeDef)
    (workload : Option Strategy) (codec : Option (ClientCodec N))
    (properties : List (Property N.State)) (backend : Backend) (seed : Seed)
    (failedName : String) : Except Halt Scenario := do
  let full :=
    match ← runDeterministic fuel data nodeDef workload codec seed with
    | .error _ => []
    | .ok run => collectOps run
  let best ← shrinkLoop (stillFails fuel data nodeDef codec properties backend seed failedName)
    full full.length full
  pure ((Scenario.new best (data.faults.getD .swarm)).fromSeed seed)

/-! ### Drive -/

/-- Runs and checks one seed: the verdicts, or the first violation with its shrunk scenario. -/
def driveSeed (fuel : ℕ) (plan : TestPlan N) (backend : Backend) (seed : Seed) :
    Except Halt (Except RunFailure (List NamedVerdict)) := do
  match ← runDeterministic fuel plan.data plan.nodeDef plan.workload plan.client seed with
  | .error failure => pure (.error failure)
  | .ok run =>
    let propVerdicts ← evaluateProperties plan.properties run.worldTrace run.events
    let verdicts := propVerdicts ++ oracleVerdicts backend (run.output seed)
    match verdicts.find? fun nv ↦ !nv.verdict.isValid with
    | none => pure (.ok verdicts)
    | some nv =>
      let scenario ← shrinkScenario fuel plan.data plan.nodeDef plan.workload plan.client
        plan.properties backend seed nv.name
      pure (.error (.violation nv.name seed scenario))

/-- Drives the seeds from an index on. -/
def driveFrom (fuel : ℕ) (propsimSeed : Option String) (plan : TestPlan N) (backend : Backend)
    (s : ℕ) : ℕ → List NamedVerdict → Except Halt (Except RunFailure Report)
  | 0, verdicts => .ok (.ok ⟨verdicts, s⟩)
  | remaining + 1, verdicts => do
    match ← driveSeed fuel plan backend (effectiveSeed propsimSeed s) with
    | .error failure => pure (.error failure)
    | .ok more => driveFrom fuel propsimSeed plan backend (s + 1) remaining (verdicts ++ more)

/-- Drives the typed white-box path over every seed of a plan. -/
def drive (fuel : ℕ) (propsimSeed : Option String) (plan : TestPlan N) (backend : Backend) :
    Except Halt (Except RunFailure Report) :=
  driveFrom fuel propsimSeed plan backend 0 (max plan.data.seeds 1).toNat []

/-- Drives the erased path: a black-box executor that produces only a history. -/
def driveErased (propsimSeed : Option String) (data : PlanData) (backend : Backend) : Report :=
  let seed := effectiveSeed propsimSeed 0
  ⟨oracleVerdicts backend (backend.executor.run data seed), 1⟩

/-! ### The facade -/

/-- Runs a plan against a backend, with a failure as data. -/
def tryRun (fuel : ℕ) (propsimSeed : Option String) (plan : TestPlan N) (backend : Backend) :
    Except Halt (Except RunFailure Report) :=
  match backend.validate with
  | .error error => .ok (.error (.negotiation error))
  | .ok () =>
    if !backend.executor.capabilities.worldSnapshots && !plan.properties.isEmpty then
      .ok (.error (.negotiation
        (.whiteBoxOraclesOnBlackBoxExecutor (plan.properties.map (·.name)))))
    else if backend.executor.capabilities.worldSnapshots then
      drive fuel propsimSeed plan backend
    else .ok (.ok (driveErased propsimSeed plan.data backend))

/-- How `run` ends: it returns a report, or panics with a failure. -/
inductive RunEnd
  | returned (report : Report)
  | panicked (failure : RunFailure)

/-- Runs a plan against a backend, panicking on a failure. -/
def run (fuel : ℕ) (propsimSeed : Option String) (plan : TestPlan N) (backend : Backend) :
    Except Halt RunEnd := do
  match ← tryRun fuel propsimSeed plan backend with
  | .ok report => pure (.returned report)
  | .error failure => pure (.panicked failure)

end Typed

end Propsim.Simulator
