import Propsim.Simulator.Run

/-!
# Replaying a scenario

`TestPlan::replay` promises to pin the operations and the faults of a plan to a scenario. The
operations are pinned, but the faults are lowered from the plan itself, and the horizon is computed
from the plan's faults when it has some. So a replay runs as the scenario says when the plan's own
faults agree with those of the scenario (`replaysExactly_of_faultsAgree`), as they do for a scenario
that was found with the same plan (`faultsAgree_of_eq`).
-/

set_option autoImplicit false
set_option relaxedAutoImplicit false

namespace Propsim.Simulator

open Foundation Interchange Propsim.Core

variable {N : Node}

/-- Runs a plan at a seed. -/
def runPlan (fuel : ℕ) (plan : TestPlan N) (seed : Seed) :
    Except Halt (Except RunFailure (TypedRun N)) :=
  runDeterministic fuel plan.data plan.nodeDef plan.workload plan.client seed

/-- A plan with the nodes, the client, the node count and the network of another one, and with the
operations and the faults of a scenario. -/
structure Pinned (plan : TestPlan N) (scenario : Scenario) (seed : Seed) (pinned : TestPlan N) :
    Prop where
  nodeDef_eq : pinned.nodeDef = plan.nodeDef
  client_eq : pinned.client = plan.client
  nodes_eq : pinned.data.nodes = plan.data.nodes
  network_eq : pinned.data.network = plan.data.network
  faults_eq : pinned.data.faults = some scenario.faults
  ops_eq : resolveOps pinned.data pinned.workload seed = scenario.ops

/-- Replaying a scenario runs as every plan that has its operations and faults. -/
def ReplaysExactly (plan : TestPlan N) (scenario : Scenario) (seed : Seed) : Prop :=
  ∀ pinned, Pinned plan scenario seed pinned →
    ∀ fuel, runPlan fuel (plan.replay scenario) seed = runPlan fuel pinned seed

/-- A fault description lowered onto the fresh scheduler of a plan with a given horizon. -/
def lowered (N : Node) (data : PlanData) (seed : Seed) (horizon : Duration)
    (faults : Option Faults) : Except Halt (NetworkModel × SchedCore N) :=
  let model := data.network.getD .orderedReliable
  lower faults model { SchedCore.new seed.val model (nodeCount data) with horizon := horizon }
    (.new (seed.val ^^^ 0xF0F0F0F0)) (nodeCount data)

/-- The faults of a plan and those of a scenario give the same horizon, and they lower to the same
network model and the same scheduler, with the same events under the same sequence numbers. -/
structure FaultsAgree (N : Node) (data : PlanData) (scenario : Scenario) (seed : Seed) : Prop where
  latest_eq : latestFault (data.faults.or (some scenario.faults)) =
    latestFault (some scenario.faults)
  lowered_eq : ∀ horizon, lowered N data seed horizon data.faults =
    lowered N data seed horizon (some scenario.faults)

/-- A plan agrees with a scenario that has its own faults. -/
theorem faultsAgree_of_eq {data : PlanData} {scenario : Scenario} (seed : Seed)
    (h : data.faults = some scenario.faults) : FaultsAgree N data scenario seed := by
  refine ⟨?_, fun horizon ↦ ?_⟩
  · rw [h, Option.some_or]
  · rw [h]

/-- Preparing a run is lowering its faults onto a scheduler with its horizon. -/
theorem prepareCore_eq (data : PlanData) (seed : Seed) :
    prepareCore N data seed = (do
      let horizon ← runHorizon data
      let (model, core) ← lowered N data seed horizon data.faults
      pure { core with model := model }) := rfl

theorem runHorizon_congr {data data' : PlanData}
    (h : latestFault (horizonFaults data) = latestFault (horizonFaults data')) :
    runHorizon data = runHorizon data' := by
  rw [runHorizon, runHorizon, h]

/-- A replay runs as its scenario says. Assumes: faults of the plan that agree with those of the
scenario at the seed. -/
theorem replaysExactly_of_faultsAgree {plan : TestPlan N} {scenario : Scenario} {seed : Seed}
    (h : FaultsAgree N plan.data scenario seed) : ReplaysExactly plan scenario seed := by
  intro pinned hpinned fuel
  have hhorizon : runHorizon (plan.replay scenario).data = runHorizon pinned.data := by
    apply runHorizon_congr
    rw [horizonFaults, horizonFaults, hpinned.faults_eq, Option.some_or]
    exact h.latest_eq
  have hlowered (horizon : Duration) :
      lowered N (plan.replay scenario).data seed horizon (plan.replay scenario).data.faults =
        lowered N pinned.data seed horizon pinned.data.faults := by
    rw [hpinned.faults_eq]
    refine (h.lowered_eq horizon).trans ?_
    rw [lowered, lowered, nodeCount, nodeCount, hpinned.nodes_eq, hpinned.network_eq]
  have hprepare : prepareCore N (plan.replay scenario).data seed =
      prepareCore N pinned.data seed := by
    simp only [prepareCore_eq, hhorizon, hlowered]
  have hops : resolveOps (plan.replay scenario).data (plan.replay scenario).workload seed =
      resolveOps pinned.data pinned.workload seed := hpinned.ops_eq.symm
  unfold runPlan runDeterministic
  rw [hpinned.nodeDef_eq, hpinned.client_eq, hprepare, hops]
  rfl

/-- The plan of a counting node, without properties. -/
def counterReplay (data : PlanData) : TestPlan counter :=
  ⟨data, none, none, some counterCodec, []⟩

/-- A scenario without operations in which the node restarts after a millisecond. -/
def restartScenario : Scenario := .new [] ⟨.scripted [⟨.fromMillis 1, .restart ⟨0⟩⟩], .safety⟩

/-- The scenario replays on a plan that has its faults. -/
theorem restartScenario_replaysExactly :
    ReplaysExactly (counterReplay (counterPlan 1 [⟨.fromMillis 1, .restart ⟨0⟩⟩] []))
      restartScenario ⟨0⟩ :=
  replaysExactly_of_faultsAgree (faultsAgree_of_eq ⟨0⟩ rfl)

/-- On a plan without faults the restart of the scenario never happens. -/
theorem restartScenario_not_replaysExactly :
    ¬ ReplaysExactly (counterReplay ⟨1, none, none, 1, none⟩) restartScenario ⟨0⟩ := by
  intro hexact
  have hsame := hexact
    (counterReplay ⟨1, none, some restartScenario.faults, 1, some restartScenario⟩)
    ⟨rfl, rfl, rfl, rfl, rfl, rfl⟩ 2
  have hevents := congrArg (fun outcome ↦ (outcome.toOption.bind Except.toOption).map
    fun run : TypedRun counter ↦ run.events) hsame
  have hreplay : ((runPlan 2 ((counterReplay ⟨1, none, none, 1, none⟩).replay restartScenario)
      ⟨0⟩).toOption.bind Except.toOption).map (fun run : TypedRun counter ↦ run.events) =
      some [] := by decide +kernel
  have hpinned : ((runPlan 2 (counterReplay ⟨1, none, some restartScenario.faults, 1,
      some restartScenario⟩) ⟨0⟩).toOption.bind Except.toOption).map
      (fun run : TypedRun counter ↦ run.events) =
      some [.nodeRejoined (.fromMillis 1) ⟨0⟩] := by decide +kernel
  simp only [hreplay, hpinned] at hevents
  simp at hevents

end Propsim.Simulator
