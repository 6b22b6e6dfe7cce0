import Propsim.Foundation.Logged
import Propsim.Simulator.Drive

/-!
# The checks that a drive makes

The drive of `propsim-sim/lib.rs` written once more, with every call of an oracle's `check` logged
together with the output that it is given. There is no other way to a verdict of an oracle in these
definitions, and their results are those of the drive for every backend (`result_tryRunLogged`), so
the log of `tryRunLogged` lists what the oracles of a backend are checked against: in the main runs,
in the runs made while shrinking, and in the run of an erased executor.
-/

set_option autoImplicit false
set_option relaxedAutoImplicit false

namespace Propsim.Simulator

open Foundation Interchange Propsim.Core

/-- An oracle with the output that it is checked against. -/
structure Check where
  oracle : Oracle
  output : RunOutput

/-- A call of an oracle's `check`. -/
def checkLogged (o : Oracle) (out : RunOutput) : Logged Check Halt Verdict :=
  ⟨.ok (o.check out), [⟨o, out⟩]⟩

/-- One verdict for each oracle, tagged with its name. -/
def oracleVerdictsLogged (backend : Backend) (out : RunOutput) :
    Logged Check Halt (List NamedVerdict) :=
  backend.oracles.mapM fun o ↦ do return ⟨o.name, ← checkLogged o out⟩

section Typed

variable {N : Node}

/-- A check of a given name rejects a run. The oracles are checked one after the other, those of
other names are not, and the first one that rejects ends it. -/
def rejectsLogged (properties : List (Property N.State)) (backend : Backend) (run : TypedRun N)
    (seed : Seed) (failedName : String) : Logged Check Halt Bool := do
  let verdicts ← evaluateProperties properties run.worldTrace run.events
  if verdicts.any fun nv ↦ nv.name == failedName && !nv.verdict.isValid then pure true
  else
    backend.oracles.anyM fun o ↦ do
      if o.name == failedName then return !(← checkLogged o (run.output seed)).isValid
      else return false

/-- A check of a given name still fails on a candidate operation stream. -/
def stillFailsLogged (fuel : ℕ) (data : PlanData) (nodeDef : Option NodeDef)
    (codec : Option (ClientCodec N)) (properties : List (Property N.State)) (backend : Backend)
    (seed : Seed) (failedName : String) (ops : List FrozenOp) : Logged Check Halt Bool := do
  match ← runDeterministic fuel (dataWithOps data ops) nodeDef none codec seed with
  | .error _ => pure false
  | .ok run => rejectsLogged properties backend run seed failedName

/-- Drops operations from the end of a stream as long as the check fails on what is left. -/
def shrinkLoopLogged (fails : List FrozenOp → Logged Check Halt Bool) (full : List FrozenOp) :
    ℕ → List FrozenOp → Logged Check Halt (List FrozenOp)
  | 0, best => pure best
  | len + 1, best => do
    let candidate := full.take len
    if ← fails candidate then shrinkLoopLogged fails full len candidate else pure best

/-- The shrunk scenario of a violation. -/
def shrinkScenarioLogged (fuel : ℕ) (data : PlanData) (nodeDef : Option NodeDef)
    (workload : Option Strategy) (codec : Option (ClientCodec N))
    (properties : List (Property N.State)) (backend : Backend) (seed : Seed)
    (failedName : String) : Logged Check Halt Scenario := do
  let full :=
    match ← runDeterministic fuel data nodeDef workload codec seed with
    | .error _ => []
    | .ok run => collectOps run
  let best ← shrinkLoopLogged
    (stillFailsLogged fuel data nodeDef codec properties backend seed failedName)
    full full.length full
  pure ((Scenario.new best (data.faults.getD .swarm)).fromSeed seed)

/-- Runs and checks one seed: the verdicts, or the first violation with its shrunk scenario. -/
def driveSeedLogged (fuel : ℕ) (plan : TestPlan N) (backend : Backend) (seed : Seed) :
    Logged Check Halt (Except RunFailure (List NamedVerdict)) := do
  match ← runDeterministic fuel plan.data plan.nodeDef plan.workload plan.client seed with
  | .error failure => pure (.error failure)
  | .ok run =>
    let propVerdicts ← evaluateProperties plan.properties run.worldTrace run.events
    let verdicts := propVerdicts ++ (← oracleVerdictsLogged backend (run.output seed))
    match verdicts.find? fun nv ↦ !nv.verdict.isValid with
    | none => pure (.ok verdicts)
    | some nv =>
      let scenario ← shrinkScenarioLogged fuel plan.data plan.nodeDef plan.workload plan.client
        plan.properties backend seed nv.name
      pure (.error (.violation nv.name seed scenario))

/-- Drives the seeds from an index on. -/
def driveFromLogged (fuel : ℕ) (propsimSeed : Option String) (plan : TestPlan N)
    (backend : Backend) (s : ℕ) :
    ℕ → List NamedVerdict → Logged Check Halt (Except RunFailure Report)
  | 0, verdicts => pure (.ok ⟨verdicts, s⟩)
  | remaining + 1, verdicts => do
    match ← driveSeedLogged fuel plan backend (effectiveSeed propsimSeed s) with
    | .error failure => pure (.error failure)
    | .ok more => driveFromLogged fuel propsimSeed plan backend (s + 1) remaining (verdicts ++ more)

/-- Drives the typed white-box path over every seed of a plan. -/
def driveLogged (fuel : ℕ) (propsimSeed : Option String) (plan : TestPlan N) (backend : Backend) :
    Logged Check Halt (Except RunFailure Report) :=
  driveFromLogged fuel propsimSeed plan backend 0 (max plan.data.seeds 1).toNat []

/-- Drives the erased path: a black-box executor that produces only a history. -/
def driveErasedLogged (propsimSeed : Option String) (data : PlanData) (backend : Backend) :
    Logged Check Halt Report := do
  let seed := effectiveSeed propsimSeed 0
  return ⟨← oracleVerdictsLogged backend (backend.executor.run data seed), 1⟩

/-- Runs a plan against a backend, with a failure as data. -/
def tryRunLogged (fuel : ℕ) (propsimSeed : Option String) (plan : TestPlan N) (backend : Backend) :
    Logged Check Halt (Except RunFailure Report) :=
  match backend.validate with
  | .error error => pure (.error (.negotiation error))
  | .ok () =>
    if !backend.executor.capabilities.worldSnapshots && !plan.properties.isEmpty then
      pure (.error (.negotiation
        (.whiteBoxOraclesOnBlackBoxExecutor (plan.properties.map (·.name)))))
    else if backend.executor.capabilities.worldSnapshots then
      driveLogged fuel propsimSeed plan backend
    else do return .ok (← driveErasedLogged propsimSeed plan.data backend)

/-! ### The results are those of the drive -/

/-- Every oracle is checked against the output once, in order. -/
theorem oracleVerdictsLogged_eq (backend : Backend) (out : RunOutput) :
    oracleVerdictsLogged backend out =
      ⟨.ok (oracleVerdicts backend out), backend.oracles.map (⟨·, out⟩)⟩ :=
  Logged.mapM_eq (fun _ ↦ rfl) backend.oracles

theorem result_rejectsLogged (properties : List (Property N.State)) (backend : Backend)
    (run : TypedRun N) (seed : Seed) (failedName : String) :
    (rejectsLogged properties backend run seed failedName).result =
      rejects properties backend run seed failedName := by
  rw [rejectsLogged, rejects, Logged.result_bind]
  refine congrArg (_ >>= ·) (funext fun verdicts ↦ ?_)
  split
  · rfl
  · refine Logged.result_anyM (fun o ↦ ?_) backend.oracles
    cases hname : o.name == failedName <;> simp [checkLogged, bind]

theorem result_stillFailsLogged (fuel : ℕ) (data : PlanData) (nodeDef : Option NodeDef)
    (codec : Option (ClientCodec N)) (properties : List (Property N.State)) (backend : Backend)
    (seed : Seed) (failedName : String) (ops : List FrozenOp) :
    (stillFailsLogged fuel data nodeDef codec properties backend seed failedName ops).result =
      stillFails fuel data nodeDef codec properties backend seed failedName ops := by
  rw [stillFailsLogged, stillFails, Logged.result_bind]
  refine congrArg (_ >>= ·) (funext fun outcome ↦ ?_)
  cases outcome with
  | error failure => rfl
  | ok run => exact result_rejectsLogged properties backend run seed failedName

theorem result_shrinkLoopLogged {fails : List FrozenOp → Except Halt Bool}
    {failsLogged : List FrozenOp → Logged Check Halt Bool}
    (h : ∀ ops, (failsLogged ops).result = fails ops) (full : List FrozenOp) (len : ℕ)
    (best : List FrozenOp) :
    (shrinkLoopLogged failsLogged full len best).result = shrinkLoop fails full len best := by
  induction len generalizing best with
  | zero => rfl
  | succ len ih =>
    rw [shrinkLoopLogged, shrinkLoop, Logged.result_bind, h]
    refine congrArg (_ >>= ·) (funext fun failed ↦ ?_)
    cases failed with
    | false => rfl
    | true => exact ih (full.take len)

theorem result_shrinkScenarioLogged (fuel : ℕ) (data : PlanData) (nodeDef : Option NodeDef)
    (workload : Option Strategy) (codec : Option (ClientCodec N))
    (properties : List (Property N.State)) (backend : Backend) (seed : Seed)
    (failedName : String) :
    (shrinkScenarioLogged fuel data nodeDef workload codec properties backend seed
        failedName).result =
      shrinkScenario fuel data nodeDef workload codec properties backend seed failedName := by
  rw [shrinkScenarioLogged, shrinkScenario, Logged.result_bind]
  refine congrArg (_ >>= ·) (funext fun outcome ↦ ?_)
  rw [Logged.result_bind, result_shrinkLoopLogged
    (result_stillFailsLogged fuel data nodeDef codec properties backend seed failedName)]
  rfl

theorem result_driveSeedLogged (fuel : ℕ) (plan : TestPlan N) (backend : Backend) (seed : Seed) :
    (driveSeedLogged fuel plan backend seed).result = driveSeed fuel plan backend seed := by
  rw [driveSeedLogged, driveSeed, Logged.result_bind]
  refine congrArg (_ >>= ·) (funext fun outcome ↦ ?_)
  cases outcome with
  | error failure => rfl
  | ok run =>
    rw [Logged.result_bind]
    refine congrArg (_ >>= ·) (funext fun propVerdicts ↦ ?_)
    rw [oracleVerdictsLogged_eq, Logged.result_bind_of_ok rfl]
    dsimp only
    cases hfind : (propVerdicts ++ oracleVerdicts backend (run.output seed)).find?
      fun nv ↦ !nv.verdict.isValid with
    | none => rfl
    | some nv =>
      dsimp only
      rw [Logged.result_bind, result_shrinkScenarioLogged]
      rfl

theorem result_driveFromLogged (fuel : ℕ) (propsimSeed : Option String) (plan : TestPlan N)
    (backend : Backend) (s remaining : ℕ) (verdicts : List NamedVerdict) :
    (driveFromLogged fuel propsimSeed plan backend s remaining verdicts).result =
      driveFrom fuel propsimSeed plan backend s remaining verdicts := by
  induction remaining generalizing s verdicts with
  | zero => rfl
  | succ remaining ih =>
    rw [driveFromLogged, driveFrom, Logged.result_bind, result_driveSeedLogged]
    refine congrArg (_ >>= ·) (funext fun outcome ↦ ?_)
    cases outcome with
    | error failure => rfl
    | ok more => exact ih (s + 1) (verdicts ++ more)

/-- With its checks logged, a drive has the result that it has without. -/
theorem result_tryRunLogged (fuel : ℕ) (propsimSeed : Option String) (plan : TestPlan N)
    (backend : Backend) :
    (tryRunLogged fuel propsimSeed plan backend).result = tryRun fuel propsimSeed plan backend := by
  unfold tryRunLogged tryRun
  cases backend.validate with
  | error error => rfl
  | ok valid =>
    simp only [apply_ite Logged.result, driveErasedLogged, oracleVerdictsLogged_eq]
    rw [driveLogged, result_driveFromLogged]
    rfl

/-! ### What the oracles are checked against -/

/-- An attached oracle is checked, against an output without world snapshots. -/
def WithoutSnapshots (backend : Backend) (check : Check) : Prop :=
  check.oracle ∈ backend.oracles ∧ check.output.worldTrace = none

theorem always_oracleVerdictsLogged (backend : Backend) {out : RunOutput}
    (hout : out.worldTrace = none) :
    (oracleVerdictsLogged backend out).Always (WithoutSnapshots backend) := by
  intro check hcheck
  rw [oracleVerdictsLogged_eq] at hcheck
  obtain ⟨o, ho, rfl⟩ := List.mem_map.mp hcheck
  exact ⟨ho, hout⟩

theorem always_rejectsLogged (properties : List (Property N.State)) (backend : Backend)
    (run : TypedRun N) (seed : Seed) (failedName : String) :
    (rejectsLogged properties backend run seed failedName).Always (WithoutSnapshots backend) := by
  refine (Logged.always_lift _).bind fun verdicts _ ↦ ?_
  split
  · exact Logged.always_pure true
  · refine Logged.always_anyM fun o ho ↦ ?_
    split
    · refine Logged.Always.bind (fun check hcheck ↦ ?_) fun _ _ ↦ Logged.always_pure _
      obtain rfl := List.mem_singleton.mp hcheck
      exact ⟨ho, rfl⟩
    · exact Logged.always_pure false

theorem always_stillFailsLogged (fuel : ℕ) (data : PlanData) (nodeDef : Option NodeDef)
    (codec : Option (ClientCodec N)) (properties : List (Property N.State)) (backend : Backend)
    (seed : Seed) (failedName : String) (ops : List FrozenOp) :
    (stillFailsLogged fuel data nodeDef codec properties backend seed failedName ops).Always
      (WithoutSnapshots backend) := by
  refine (Logged.always_lift _).bind fun outcome _ ↦ ?_
  cases outcome with
  | error failure => exact Logged.always_pure false
  | ok run => exact always_rejectsLogged properties backend run seed failedName

theorem always_shrinkLoopLogged {P : Check → Prop}
    {fails : List FrozenOp → Logged Check Halt Bool} (h : ∀ ops, (fails ops).Always P)
    (full : List FrozenOp) (len : ℕ) (best : List FrozenOp) :
    (shrinkLoopLogged fails full len best).Always P := by
  induction len generalizing best with
  | zero => exact Logged.always_pure best
  | succ len ih =>
    refine (h (full.take len)).bind fun failed _ ↦ ?_
    cases failed with
    | false => exact Logged.always_pure best
    | true => exact ih (full.take len)

theorem always_shrinkScenarioLogged (fuel : ℕ) (plan : TestPlan N) (backend : Backend)
    (seed : Seed) (failedName : String) :
    (shrinkScenarioLogged fuel plan.data plan.nodeDef plan.workload plan.client plan.properties
      backend seed failedName).Always (WithoutSnapshots backend) := by
  refine (Logged.always_lift _).bind fun outcome _ ↦ ?_
  refine Logged.Always.bind (always_shrinkLoopLogged (fun ops ↦ ?_) _ _ _) fun _ _ ↦
    Logged.always_pure _
  exact always_stillFailsLogged fuel plan.data plan.nodeDef plan.client plan.properties backend
    seed failedName ops

theorem always_driveSeedLogged (fuel : ℕ) (plan : TestPlan N) (backend : Backend) (seed : Seed) :
    (driveSeedLogged fuel plan backend seed).Always (WithoutSnapshots backend) := by
  refine (Logged.always_lift _).bind fun outcome _ ↦ ?_
  cases outcome with
  | error failure => exact Logged.always_pure _
  | ok run =>
    refine (Logged.always_lift _).bind fun propVerdicts _ ↦ ?_
    refine (always_oracleVerdictsLogged backend rfl).bind fun oracleVerdicts _ ↦ ?_
    dsimp only
    split
    · exact Logged.always_pure _
    · exact (always_shrinkScenarioLogged fuel plan backend seed _).bind fun _ _ ↦
        Logged.always_pure _

/-- In the typed drive, oracles are checked only against outputs without world snapshots, in the
main runs as in the runs made while shrinking. -/
theorem always_driveFromLogged (fuel : ℕ) (propsimSeed : Option String) (plan : TestPlan N)
    (backend : Backend) (s remaining : ℕ) (verdicts : List NamedVerdict) :
    (driveFromLogged fuel propsimSeed plan backend s remaining verdicts).Always
      (WithoutSnapshots backend) := by
  induction remaining generalizing s verdicts with
  | zero => exact Logged.always_pure _
  | succ remaining ih =>
    refine (always_driveSeedLogged fuel plan backend _).bind fun outcome _ ↦ ?_
    cases outcome with
    | error failure => exact Logged.always_pure _
    | ok more => exact ih (s + 1) (verdicts ++ more)

end Typed

end Propsim.Simulator
