import Propsim.Simulator.DriveVerdicts
import Propsim.Simulator.Rerun
import Propsim.Simulator.Shrinking

/-!
# Whether a reported scenario reproduces its violation

The scenario of a violation is built from the recorded Invokes of the failing run, and when no
shorter prefix fails it is returned without another check. What the Invokes do not carry is lost:
the routes of the operations, the horizon of a replayed script, and the operations that were queued
at the horizon. An execution that depends on none of these (`Execution.Recovered`) runs again to the
same result, so that the replay of the scenario fails the same check (`drive_reproduces`).
-/

set_option autoImplicit false
set_option relaxedAutoImplicit false

namespace Propsim.Simulator

open Foundation Interchange Propsim.Core

variable {N : Node} {codec : Option (ClientCodec N)} {ops ops' : List FrozenOp}

/-! ### The end of the loop -/

/-- The clock stays where it is when the queue is drained, and moves to the horizon otherwise. -/
theorem Stops.now_eq {core core' : SchedCore N} (h : Stops core core') :
    core'.now = if core.queue.toList = [] then core.now else core.horizon := by
  cases h with
  | drained hpop => rw [if_pos (PriorityQueue.pop_eq_none_iff.mp hpop)]
  | horizon hpop hpast =>
    rw [PriorityQueue.pop_eq_some_iff.mp hpop, if_neg (List.cons_ne_nil _ _)]

/-- The queue is empty, or it holds something else than client operations. -/
def HoldsOther (core : SchedCore N) : Prop :=
  core.queue.toList = [] ∨ ∃ event ∈ core.queue.toList, event.kind.isClientOp = false

instance (core : SchedCore N) : Decidable (HoldsOther core) :=
  inferInstanceAs (Decidable (core.queue.toList = [] ∨ _))

/-- Of two states in step, the second has an empty queue when the first has. Assumes: the queue of
the first does not only hold operations that are never issued. -/
theorem InStep.queue_eq_nil_iff {future : ℕ → ℕ} {state state' : RunState N}
    (h : InStep ops ops' future state state') (hother : HoldsOther state.core) :
    state'.core.queue.toList = [] ↔ state.core.queue.toList = [] := by
  have hview := h.view.view_eq
  constructor
  · intro hempty
    refine hother.resolve_right ?_
    rintro ⟨event, hevent, hclient⟩
    have hseen : (event.fireAt, event.kind.viewed ops state.core.nodeCount.toNat) ∈
        state.core.view pastHorizon ops :=
      mem_viewOf.mpr ⟨event, hevent, Scheduled.live_of_not_clientOp hclient _, rfl⟩
    rw [← hview] at hseen
    obtain ⟨event', hevent', -⟩ := mem_viewOf.mp hseen
    rw [hempty] at hevent'
    exact List.not_mem_nil hevent'
  · intro hempty
    refine List.eq_nil_iff_forall_not_mem.mpr fun event' hevent' ↦ ?_
    obtain ⟨event, hevent, -⟩ := h.view.exists_fireAt hevent' (h.live hevent')
    rw [hempty] at hevent
    exact List.not_mem_nil hevent

/-! ### Closing what is left open -/

/-- Two cores that record the same when operations are closed. -/
structure RecordsAlike (core core' : SchedCore N) : Prop where
  now_eq : core'.now = core.now
  history_eq : core'.history = core.history
  pending_eq : core'.pendingOps = core.pendingOps

theorem RecordsAlike.closeAll {core core' : SchedCore N} (h : RecordsAlike core core')
    (tokens : List ℕ) : RecordsAlike (core.closeAll tokens) (core'.closeAll tokens) := by
  induction tokens generalizing core core' with
  | nil => exact h
  | cons token rest ih =>
    refine @ih (core.closeOp ⟨token⟩ .info .nil) (core'.closeOp ⟨token⟩ .info .nil) ?_
    have hpending : core'.pending ⟨token⟩ = core.pending ⟨token⟩ := by
      rw [SchedCore.pending, SchedCore.pending, h.pending_eq]
    unfold SchedCore.closeOp
    rw [hpending]
    cases core.pending ⟨token⟩ with
    | none => exact h
    | some op =>
      refine ⟨h.now_eq, ?_, ?_⟩
      · change History.mk (core'.history.entries ++ [_]) = ⟨core.history.entries ++ [_]⟩
        rw [h.history_eq, h.now_eq]
      · change core'.pendingOps.filter _ = core.pendingOps.filter _
        rw [h.pending_eq]

section Executions

variable {data : PlanData} {workload : Option Strategy} {seed : Seed}

/-- The recovered operations lose nothing that an execution depends on: each operation is handed to
the node of its own process, the horizon is that of the plan's own faults, and when the loop ends
with operations open its queue does not hold client operations alone. -/
structure Execution.Recovered (e : Execution N data workload codec seed) : Prop where
  home : ∀ event ∈ e.taken,
    RoutedHome (resolveOps data workload seed) e.prepared.nodeCount.toNat event
  horizon : latestFault (horizonFaults data) = latestFault data.faults
  closing : (lastState e.started e.steps).core.pendingOps = [] ∨
    HoldsOther (lastState e.started e.steps).core

/-- Two executions whose last states are in step have the same result. Assumes: when the first one
ends with operations open, its queue does not hold client operations alone. -/
theorem Execution.result_eq_of_inStep {data' : PlanData} {workload' : Option Strategy}
    {future : ℕ → ℕ} (e : Execution N data workload codec seed)
    (e' : Execution N data' workload' codec seed)
    (h : InStep ops ops' future (lastState e.started e.steps) (lastState e'.started e'.steps))
    (hclosing : (lastState e.started e.steps).core.pendingOps = [] ∨
      HoldsOther (lastState e.started e.steps).core) :
    e'.result = e.result := by
  obtain ⟨hframes, hevents, -⟩ := e.result_of_inStep e' h
  have hlast := h.view.core_eq
  have hfinal := e.final_eq.2
  have hfinal' := e'.final_eq.2
  have hhistory : e'.result.history = e.result.history := by
    change (e'.final.core.closeAll (e'.final.core.pendingOps.map (·.1))).history =
      (e.final.core.closeAll (e.final.core.pendingOps.map (·.1))).history
    rcases hclosing with hnone | hother
    · -- Nothing is closed after the loop.
      rw [hfinal', hfinal, hlast]
      simp only [hnone]
      rfl
    · have halike : RecordsAlike e.final.core e'.final.core := by
        refine ⟨?_, ?_, ?_⟩
        · rw [e'.loop.stops.1.now_eq, e.loop.stops.1.now_eq, hlast]
          exact if_congr (h.queue_eq_nil_iff hother) rfl rfl
        · rw [hfinal', hfinal, hlast]
        · rw [hfinal', hfinal, hlast]
      rw [halike.pending_eq]
      exact (halike.closeAll _).history_eq
  have htrace : e'.result.worldTrace = e.result.worldTrace := by
    change WorldTrace.mk e'.result.worldTrace.frames e'.result.history =
      ⟨e.result.worldTrace.frames, e.result.history⟩
    rw [hframes, hhistory]
  change TypedRun.mk e'.result.history e'.result.worldTrace e'.result.events seed =
    ⟨e.result.history, e.result.worldTrace, e.result.events, seed⟩
  rw [hhistory, htrace, hevents]

/-- A plan of which an execution is recovered runs again to the same result on the operations that
the execution issued. -/
theorem Execution.Recovered.exists_rerun {e : Execution N data workload codec seed}
    (h : e.Recovered) (workload' : Option Strategy) :
    ∃ e' : Execution N (dataWithOps data (collectOps e.result)) workload' codec seed,
      e'.result = e.result := by
  have hhorizon : runHorizon (dataWithOps data (collectOps e.result)) = runHorizon data := by
    apply runHorizon_congr
    rw [h.horizon, horizonFaults]
    cases hfaults : data.faults with
    | none => simp [dataWithOps, hfaults, latestFault, Faults.swarm, Faults.script, Scenario.new]
    | some faults => simp [dataWithOps, hfaults]
  obtain ⟨e', hstep⟩ := e.exists_rerun workload' hhorizon h.home
  exact ⟨e', e.result_eq_of_inStep e' hstep h.closing⟩

end Executions

/-! ### Violations -/

section Violations

variable {fuel : ℕ} {plan : TestPlan N} {backend : Backend} {name : String} {seed origin : Seed}
  {scenario : Scenario}

/-- A violation of one seed is the rejection of its run, with the shrunk scenario. -/
theorem exists_of_driveSeed
    (h : driveSeed fuel plan backend seed = .ok (.error (.violation name origin scenario))) :
    origin = seed ∧ ∃ run,
      runDeterministic fuel plan.data plan.nodeDef plan.workload plan.client seed =
        .ok (.ok run) ∧ RejectedBy plan backend run seed name ∧
      shrinkScenario fuel plan.data plan.nodeDef plan.workload plan.client plan.properties backend
        seed name = .ok scenario := by
  obtain ⟨rfl, run, hrun, hrejected⟩ := (driveSeed_eq_ok h).2 name origin scenario rfl
  refine ⟨rfl, run, hrun, hrejected, ?_⟩
  obtain ⟨outcome, hrun', h⟩ := except_bind_eq_ok.mp h
  obtain rfl := Except.ok.inj (hrun.symm.trans hrun')
  obtain ⟨verdicts, -, h⟩ := except_bind_eq_ok.mp h
  simp only at h
  split at h
  · cases except_pure_eq_ok.mp h
  · obtain ⟨shrunk, hshrunk, h⟩ := except_bind_eq_ok.mp h
    obtain ⟨rfl, -, rfl⟩ := RunFailure.violation.inj (Except.error.inj (except_pure_eq_ok.mp h))
    exact hshrunk

/-- A drive ends with the violation of one of its seeds, by induction on how many remain. -/
theorem driveSeed_of_driveFrom {propsimSeed : Option String} {s remaining : ℕ}
    {verdicts : List NamedVerdict}
    (h : driveFrom fuel propsimSeed plan backend s remaining verdicts =
      .ok (.error (.violation name seed scenario))) :
    driveSeed fuel plan backend seed = .ok (.error (.violation name seed scenario)) := by
  induction remaining generalizing s verdicts with
  | zero => cases Except.ok.inj h
  | succ remaining ih =>
    rw [driveFrom] at h
    obtain ⟨outcome, hseed, h⟩ := except_bind_eq_ok.mp h
    cases outcome with
    | error failure =>
      obtain rfl := Except.error.inj (except_pure_eq_ok.mp h)
      obtain ⟨rfl, -⟩ := exists_of_driveSeed hseed
      exact hseed
    | ok more => exact ih h

/-- A check that `still_fails` reports rejects the run. -/
theorem rejectedBy_of_rejects {run : TypedRun N}
    (h : rejects plan.properties backend run seed name = .ok true) :
    RejectedBy plan backend run seed name := by
  obtain ⟨verdicts, hverdicts, h⟩ := except_bind_eq_ok.mp h
  rw [rejectedBy_iff hverdicts]
  split_ifs at h with hprop
  · obtain ⟨nv, hmem, hnv⟩ := List.any_eq_true.mp hprop
    simp only [Bool.and_eq_true, beq_iff_eq, Bool.not_eq_true'] at hnv
    exact ⟨nv, List.mem_append_left _ hmem, hnv.1, hnv.2⟩
  · obtain ⟨o, hmem, ho⟩ := List.any_eq_true.mp (except_pure_eq_ok.mp h)
    simp only [Bool.and_eq_true, beq_iff_eq, Bool.not_eq_true'] at ho
    exact ⟨⟨o.name, o.check (run.output seed)⟩,
      List.mem_append_right _ (List.mem_map_of_mem hmem), ho.1, ho.2⟩

/-- The replay of a shrunk scenario is the run on its operations. -/
theorem runDeterministic_replay (fuel : ℕ) (plan : TestPlan N) (ops : List FrozenOp) (seed : Seed) :
    runDeterministic fuel (plan.replay ((Scenario.new ops
        (plan.data.faults.getD .swarm)).fromSeed seed)).data plan.nodeDef plan.workload
          plan.client seed =
      runDeterministic fuel (dataWithOps plan.data ops) plan.nodeDef none plan.client seed := by
  rfl

/-- The scenario of a violation that a drive returns reproduces it: the replay of the scenario at
the seed fails a check of the same name. Assumes: an execution of the plan at the seed of which the
Invokes lose nothing. -/
theorem drive_reproduces {propsimSeed : Option String}
    (hdrive : drive fuel propsimSeed plan backend = .ok (.error (.violation name seed scenario)))
    (hrecovered : ∀ e : Execution N plan.data plan.workload plan.client seed, e.Recovered) :
    ∃ fuel', Rejected fuel' (plan.replay scenario) backend seed name := by
  obtain ⟨-, run, hrun, hrejected, hshrink⟩ := exists_of_driveSeed (driveSeed_of_driveFrom hdrive)
  obtain ⟨m, hm, rfl, hfailing, -⟩ := exists_of_shrinkScenario hrun hshrink
  by_cases hshorter : m < (collectOps run).length
  · -- A proper prefix was run and checked.
    obtain ⟨outcome, hrerun, hrejects⟩ := except_bind_eq_ok.mp (hfailing m le_rfl hshorter)
    cases outcome with
    | error failure => cases except_pure_eq_ok.mp hrejects
    | ok rerun =>
      exact ⟨fuel, rerun, (runDeterministic_replay _ _ _ _).trans hrerun,
        rejectedBy_of_rejects hrejects⟩
  · -- All of the recovered operations: the execution runs again as it was.
    have hnode : plan.nodeDef ≠ some .spawnEach := by
      intro hspawn
      rw [hspawn] at hrun
      cases Except.ok.inj hrun
    obtain ⟨e, rfl⟩ := exists_execution hrun
    obtain ⟨e', hsame⟩ := (hrecovered e).exists_rerun none
    obtain ⟨fuel', hrerun⟩ := (runDeterministic_eq_ok_iff hnode e'.result).mpr ⟨e', rfl⟩
    rw [List.take_of_length_le (not_lt.mp hshorter)]
    refine ⟨fuel', e'.result, (runDeterministic_replay _ _ _ _).trans hrerun, ?_⟩
    rw [hsame]
    exact hrejected

end Violations

/-! ### A violation that is reproduced, and one that is not -/

/-- The violation with which a drive ends. -/
def violationOf : Except Halt (Except RunFailure Report) → Option (String × Seed × Scenario)
  | .ok (.error (.violation name seed scenario)) => some (name, seed, scenario)
  | _ => none

theorem eq_violation {outcome : Except Halt (Except RunFailure Report)} {name : String}
    {seed : Seed} {scenario : Scenario} (h : violationOf outcome = some (name, seed, scenario)) :
    outcome = .ok (.error (.violation name seed scenario)) := by
  unfold violationOf at h
  split at h
  · obtain ⟨rfl, rfl, rfl⟩ : _ = name ∧ _ = seed ∧ _ = scenario := by simpa using h
    rfl
  · cases h

/-- One counting node that is sent three operations, and is expected to see two. -/
def pairTest : TestPlan counter := ⟨threeIncrements, none, none, some counterCodec, [pairReached]⟩

/-- The drive that expects two operations is reproduced. -/
theorem pairTest_reproduces :
    ∃ seed scenario, drive 16 none pairTest bareBackend =
        .ok (.error (.violation "pair-reached" seed scenario)) ∧
      ∃ fuel', Rejected fuel' (pairTest.replay scenario) bareBackend seed "pair-reached" := by
  have hviolation : (violationOf (drive 16 none pairTest bareBackend)).map
      (fun v ↦ (v.1, v.2.1)) = some ("pair-reached", effectiveSeed none 0) := by
    decide +kernel
  obtain ⟨⟨name, seed, scenario⟩, hdrive, hnames⟩ := Option.map_eq_some_iff.mp hviolation
  obtain ⟨rfl, rfl⟩ := Prod.mk.inj hnames
  refine ⟨_, scenario, eq_violation hdrive,
    drive_reproduces (eq_violation hdrive) fun e ↦ ⟨?_, ?_, ?_⟩⟩
  · intro event _
    refine routedHome_of_route_eq_none (fun op hop ↦ ?_) _ event
    rw [List.eq_of_mem_replicate (hop : op ∈ List.replicate 3 (FrozenOp.new ⟨0⟩ .nil))]
    rfl
  · rfl
  · have hnone : decide ((lastState e.started e.steps).core.pendingOps = []) = true :=
      e.of_compute (f := fun e ↦ decide ((lastState e.started e.steps).core.pendingOps = [])) 16
        (by decide +kernel)
    exact Or.inl (of_decide_eq_true hnone)

/-- The second of two nodes never executes an operation. -/
def idleSecond : Property ℕ :=
  ⟨"second-idle", .always, fun world ↦ world.nodes[1]? = some 0, none⟩

/-- An operation of the first process that is routed to the second node. -/
def routedTest : TestPlan counter :=
  ⟨counterPlan 2 [] [⟨⟨0⟩, some ⟨1⟩, .nil⟩], none, none, some counterCodec, [idleSecond]⟩

deriving instance DecidableEq for FrozenOp, Scenario

/-- The scenario of a routed operation has lost the route: its replay hands the operation to the
first node, and the check passes. -/
theorem routedTest_not_reproduced :
    ∃ seed scenario, drive 16 none routedTest bareBackend =
        .ok (.error (.violation "second-idle" seed scenario)) ∧
      ∀ fuel', ¬Rejected fuel' (routedTest.replay scenario) bareBackend seed "second-idle" := by
  have hviolation : violationOf (drive 16 none routedTest bareBackend) =
      some ("second-idle", effectiveSeed none 0,
        (Scenario.new [.new ⟨0⟩ .nil] ⟨.scripted [], .safety⟩).fromSeed
          (effectiveSeed none 0)) := by
    decide +kernel
  refine ⟨_, _, eq_violation hviolation, ?_⟩
  rintro fuel' ⟨rerun, hrerun, hrejected⟩
  have hverdict : ((runDeterministic 16 (routedTest.replay ((Scenario.new [.new ⟨0⟩ .nil]
      ⟨.scripted [], .safety⟩).fromSeed (effectiveSeed none 0))).data routedTest.nodeDef
      routedTest.workload routedTest.client (effectiveSeed none 0)).toOption.bind
        Except.toOption).map (fun run ↦
          (evaluateOne idleSecond run.worldTrace run.events).toOption.map (·.isValid)) =
      some (some true) := by
    decide +kernel
  obtain ⟨run, hrun, hvalid⟩ := Option.map_eq_some_iff.mp hverdict
  obtain ⟨outcome, houtcome, hrun⟩ := Option.bind_eq_some_iff.mp hrun
  obtain rfl := runDeterministic_unique hrerun (eq_ok_of_toOption houtcome)
  obtain rfl := Option.some.inj hrun
  rcases hrejected with ⟨prop, hprop, -, verdict, heval, hinvalid⟩ | ⟨o, ho, -⟩
  · have hsame : (evaluateOne prop rerun.worldTrace rerun.events).toOption.map (·.isValid) =
        some false := by
      rw [heval, ← hinvalid]
      rfl
    obtain rfl := List.mem_singleton.mp hprop
    cases hsame.symm.trans hvalid
  · cases ho

end Propsim.Simulator
