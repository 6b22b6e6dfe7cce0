import Propsim.Core.Node
import Propsim.Core.Oracle

/-!
# Plans, backends and run results

The backend-neutral description of a test: the network model of `transport.rs`, the fault
descriptions of `faults.rs`, the frozen operations of `scenario.rs`, the properties of
`property_impl.rs`, the plan and its results of `plan.rs`, and the composition and negotiation of a
backend of `backend.rs`. The workload strategy comes from outside the repository: it is a parameter
with its own runner, which is seeded with bytes and advanced by every sample.
-/

set_option autoImplicit false
set_option relaxedAutoImplicit false

namespace Propsim.Core

open Foundation Interchange

/-! ### Network -/

/-- A probability. -/
structure Prob where
  value : Binary64
  deriving DecidableEq

/-- The event never happens. -/
def Prob.never : Prob := ⟨.zero⟩

/-- The event always happens. -/
def Prob.always : Prob := ⟨.one⟩

/-- A half-open range of milliseconds. -/
structure MillisRange where
  start : UInt64
  stop : UInt64
  deriving DecidableEq

/-- A quantitative network model: per-message delay, loss, duplication, ordering. -/
structure NetworkModel where
  delayMs : MillisRange
  loss : Prob
  duplicate : Prob
  ordered : Bool
  deriving DecidableEq

/-- Per-link FIFO with no loss, duplication or delay. -/
def NetworkModel.orderedReliable : NetworkModel := ⟨⟨0, 0⟩, .never, .never, true⟩

/-! ### Faults -/

/-- Whether the schedule injures uniformly, or injures and then heals. -/
inductive Mode
  | safety
  | liveness
  deriving DecidableEq

/-- The fault kinds that a swarm schedule may enable. -/
inductive FaultKind
  | partitions
  | crashRestart
  | latency (range : MillisRange)
  | drop (p : Prob)
  | duplicate (p : Prob)
  | reorder
  deriving DecidableEq

/-- A scripted fault action. -/
inductive ScriptedAction
  | partition (a b : List NodeId)
  | healAll
  | crash (node : NodeId)
  | restart (node : NodeId)
  deriving DecidableEq

/-- One entry of a scripted fault timeline. -/
structure ScriptedEvent where
  fireAt : Duration
  action : ScriptedAction
  deriving DecidableEq

/-- A swarm of enabled kinds, or a timeline of specific events. -/
inductive FaultSpec
  | swarm (kinds : List FaultKind)
  | scripted (events : List ScriptedEvent)
  deriving DecidableEq

/-- A backend-neutral fault description. -/
structure Faults where
  spec : FaultSpec
  mode : Mode
  deriving DecidableEq

/-- An empty swarm schedule. -/
def Faults.swarm : Faults := ⟨.swarm [], .safety⟩

/-- The enabled swarm kinds, if this is a swarm description. -/
def Faults.swarmKinds (faults : Faults) : Option (List FaultKind) :=
  match faults.spec with
  | .swarm kinds => some kinds
  | .scripted _ => none

/-- The scripted timeline, if this is a scripted description. -/
def Faults.script (faults : Faults) : Option (List ScriptedEvent) :=
  match faults.spec with
  | .scripted events => some events
  | .swarm _ => none

/-! ### Scenarios -/

/-- One generated client operation, frozen to a concrete value. -/
structure FrozenOp where
  process : NodeId
  /-- The node this operation is routed to, by default `process % nodeCount`. -/
  route : Option NodeId
  op : Value

/-- An operation that is routed by default. -/
def FrozenOp.new (process : NodeId) (op : Value) : FrozenOp := ⟨process, none, op⟩

/-- A frozen, replayable execution. -/
structure Scenario where
  originSeed : Option Seed
  ops : List FrozenOp
  faults : Faults

/-- A scenario that is not tied to a seed. -/
def Scenario.new (ops : List FrozenOp) (faults : Faults) : Scenario := ⟨none, ops, faults⟩

/-- Records the seed that a scenario came from. -/
def Scenario.fromSeed (scenario : Scenario) (seed : Seed) : Scenario :=
  { scenario with originSeed := some seed }

/-! ### Properties -/

/-- A snapshot of the whole system at one instant. -/
structure World (S : Type) where
  nodes : List S
  history : History
  now : Duration

/-- The temporal flavor of a property. -/
inductive PropertyKind
  | always
  | sometimes
  | eventuallyWithin (deadline : Duration)
  deriving DecidableEq

/-- A named claim about world snapshots. -/
structure Property (S : Type) where
  name : String
  kind : PropertyKind
  predicate : World S → Bool
  /-- The event after which the deadline clock of a bounded-liveness property starts. -/
  after : Option Event

/-! ### Plans -/

/-- A proptest strategy of operations with its runner: seeding a runner, and sampling it. A sample
fails when the strategy rejects. -/
structure Strategy where
  Runner : Type
  fromSeed : List UInt8 → Runner
  newTree : Runner → Option FrozenOp × Runner

/-- How the nodes are defined. -/
inductive NodeDef
  | stateMachine
  | spawnEach
  deriving DecidableEq

/-- The backend-neutral description that an executor consumes. -/
structure PlanData where
  nodes : UInt64
  network : Option NetworkModel
  faults : Option Faults
  seeds : UInt64
  replay : Option Scenario

/-- A finalized, backend-neutral test. -/
structure TestPlan (N : Node) where
  data : PlanData
  nodeDef : Option NodeDef
  workload : Option Strategy
  client : Option (ClientCodec N)
  properties : List (Property N.State)

/-- Pins the workload and the faults of a plan to a frozen scenario. -/
def TestPlan.replay {N : Node} (plan : TestPlan N) (scenario : Scenario) : TestPlan N :=
  { plan with data := { plan.data with replay := some scenario } }

/-- A verdict tagged with the name of the property or oracle that produced it. -/
structure NamedVerdict where
  name : String
  verdict : Verdict
  deriving DecidableEq

/-- A passing run's report. -/
structure Report where
  verdicts : List NamedVerdict
  seedsRun : ℕ
  deriving DecidableEq

/-! ### Backends -/

/-- An executor runs a plan at a seed and yields a normalized output. -/
structure Executor where
  capabilities : Produces
  run : PlanData → Seed → RunOutput

/-- One executor composed with the oracles that check its output. -/
structure Backend where
  executor : Executor
  oracles : List Oracle

/-- An error from negotiating a backend. -/
inductive BackendError
  | whiteBoxOraclesOnBlackBoxExecutor (names : List String)
  deriving DecidableEq

/-- The negotiation rule: a white-box oracle cannot run on a black-box executor. -/
def validate (exec : Executor) (oracles : List Oracle) : Except BackendError Unit :=
  if exec.capabilities.worldSnapshots then .ok ()
  else
    let offenders := (oracles.filter fun o ↦ o.needs = .world).map (·.name)
    if offenders.isEmpty then .ok ()
    else .error (.whiteBoxOraclesOnBlackBoxExecutor offenders)

/-- Runs capability negotiation on a backend. -/
def Backend.validate (backend : Backend) : Except BackendError Unit :=
  Core.validate backend.executor backend.oracles

/-- Why a run did not produce a passing report. -/
inductive RunFailure
  | negotiation (error : BackendError)
  | violation (name : String) (seed : Seed) (scenario : Scenario)
  | noExecutor

end Propsim.Core
