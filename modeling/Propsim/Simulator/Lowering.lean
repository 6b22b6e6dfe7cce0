import Propsim.Simulator.Scheduler

/-!
# Lowering a fault description

`propsim-sim/faults.rs`: scripted faults map one-to-one onto timed actions; swarm faults pick a
random subset of the enabled kinds, fold the continuous kinds into the network model, and schedule
timed partition and crash events.
-/

set_option autoImplicit false
set_option relaxedAutoImplicit false

namespace Propsim.Simulator

open Foundation Interchange Propsim.Core

/-- One half, the chance with which swarm testing keeps a kind. -/
def half : Binary64 := ⟨0x3FE0000000000000⟩

/-- The state of the lowering loop. -/
structure Lowering (N : Node) where
  model : NetworkModel
  core : SchedCore N
  rng : SimRng
  scheduledPartition : Bool

variable {N : Node}

/-- The scripted action as a timeline action. -/
def lowerAction : ScriptedAction → FaultAction
  | .partition a b => .partition a b
  | .healAll => .healAll
  | .crash n => .crash n
  | .restart n => .restart n

/-- The random subset of the enabled kinds for this seed. -/
def selectKinds : List FaultKind → SimRng → List FaultKind × SimRng
  | [], rng => ([], rng)
  | kind :: rest, rng =>
    let (keep, rng) := rng.chance half
    let (kept, rng) := selectKinds rest rng
    (if keep then kind :: kept else kept, rng)

/-- The node ids from `lo` up to `hi`. -/
def nodeRange (lo hi : UInt64) : List NodeId :=
  ((List.range hi.toNat).drop lo.toNat).map fun n ↦ ⟨.ofNat n⟩

/-- Lowers one enabled kind. -/
def lowerKind (mode : Mode) (nodeCount : UInt64) (state : Lowering N) (kind : FaultKind) :
    Except Halt (Lowering N) :=
  match kind with
  | .latency range => .ok { state with model := { state.model with delayMs := range } }
  | .drop p => .ok { state with model := { state.model with loss := p } }
  | .duplicate p => .ok { state with model := { state.model with duplicate := p } }
  | .reorder => .ok { state with model := { state.model with ordered := false } }
  | .partitions =>
    if 2 ≤ nodeCount then
      let (cut, rng) := state.rng.rangeU64 1 nodeCount
      let (millis, rng) := rng.rangeU64 100 1000
      .ok { state with
        rng := rng
        core := state.core.scheduleFault (.fromMillis millis)
          (.partition (nodeRange 0 cut) (nodeRange cut nodeCount))
        scheduledPartition := true }
    else .ok state
  | .crashRestart => do
    let (victim, rng) := state.rng.rangeU64 0 (max nodeCount 1)
    let (millis, rng) := rng.rangeU64 100 1000
    let crashAt := Duration.fromMillis millis
    let core := state.core.scheduleFault crashAt (.crash ⟨victim⟩)
    if mode = .liveness then
      let (millis, rng) := rng.rangeU64 500 2000
      let restartAt ← addDuration crashAt (.fromMillis millis)
      pure { state with rng := rng, core := core.scheduleFault restartAt (.restart ⟨victim⟩) }
    else pure { state with rng := rng, core := core }

/-- Lowers a swarm description. -/
def lowerSwarm (kinds : List FaultKind) (mode : Mode) (model : NetworkModel) (core : SchedCore N)
    (rng : SimRng) (nodeCount : UInt64) : Except Halt (NetworkModel × SchedCore N) := do
  let (enabled, rng) := selectKinds kinds rng
  let state ← enabled.foldlM (lowerKind mode nodeCount) ⟨model, core, rng, false⟩
  if mode = .liveness ∧ state.scheduledPartition then
    let (millis, _) := state.rng.rangeU64 2000 4000
    pure (state.model, state.core.scheduleFault (.fromMillis millis) .healAll)
  else pure (state.model, state.core)

/-- Applies a fault description to a fresh scheduler: the network model it leaves active, and the
scheduler with its discrete events. -/
def lower (faults : Option Faults) (model : NetworkModel) (core : SchedCore N) (rng : SimRng)
    (nodeCount : UInt64) : Except Halt (NetworkModel × SchedCore N) :=
  match faults with
  | none => .ok (model, core)
  | some faults =>
    match faults.script with
    | some script =>
      .ok (model, script.foldl (fun core event ↦
        core.scheduleFault event.fireAt (lowerAction event.action)) core)
    | none =>
      match faults.swarmKinds with
      | some kinds => lowerSwarm kinds faults.mode model core rng nodeCount
      | none => .ok (model, core)

end Propsim.Simulator
