import Propsim.Simulator.Lockstep
import Propsim.Simulator.Replay

/-!
# Re-running a plan on the operations of a run

The operations that are recovered from the Invokes of a run lose their routes, and the operations
that were not issued are gone. When every operation was handed to the node of its own process, the
plan runs on them as before (`Execution.exists_rerun`): the frames, the events and the recorded
history are equal, and only the times at which the last open operations are closed can differ.
-/

set_option autoImplicit false
set_option relaxedAutoImplicit false

namespace Propsim.Simulator

open Foundation Interchange Propsim.Core

variable {N : Node} {codec : Option (ClientCodec N)} {ops ops' : List FrozenOp} {hides : Hides}

/-! ### The stream of a process -/

/-- The event issues its operation, if it has one, to the node of its process. -/
def RoutedHome (ops : List FrozenOp) (count : ℕ) (event : Scheduled N) : Prop :=
  ∀ process index op, event.kind = .clientOp process index → ops[index]? = some op →
    target op process count = process.id.toNat % count

theorem routedHome_of_route_eq_none {ops : List FrozenOp} (h : ∀ op ∈ ops, op.route = none)
    (count : ℕ) (event : Scheduled N) : RoutedHome ops count event := by
  intro process index op _ hop
  rw [target, h op (List.mem_of_getElem? hop)]

section Executions

variable {data : PlanData} {workload : Option Strategy} {seed : Seed}

/-! ### The start of the two runs -/

/-- A queue without client operations looks the same under every stream. -/
theorem SameView.of_no_clientOp {core : SchedCore N} (hfresh : Fresh core.queue core.seq)
    (hnone : ∀ event ∈ core.queue.toList, event.kind.isClientOp = false) :
    SameView hides ops ops' core core := by
  refine .intro core.queue core.seq hfresh hfresh ?_
  refine List.map_congr_left fun event hevent ↦ ?_
  have hkind := hnone event (List.mem_filter.mp hevent).1
  rw [EventKind.viewed_of_not_clientOp hkind, EventKind.viewed_of_not_clientOp hkind]

/-- Before the first operations are pumped, none is queued. -/
theorem isClientOp_of_startNodes {data : PlanData} {seed : Seed} {prepared core : SchedCore N}
    {nodes : List (Option N.State)} (hprepare : prepareCore N data seed = .ok prepared)
    (hnodes : startNodes codec prepared = .ok (core, nodes)) :
    ∀ event ∈ core.queue.toList, event.kind.isClientOp = false := by
  intro event hevent
  have hgated : Gated (fun _ ↦ 0) core :=
    (gated_prepared hprepare).coreSteps (startNodes_steps hnodes)
  obtain ⟨-, hqueued, -⟩ := streamed_unpumped [] hprepare hnodes
  cases hkind : event.kind with
  | clientOp process index =>
    have hp := hgated.clients event hevent process index hkind
    have hidle := hqueued process.id.toNat hp
    rw [UInt64.ofNat_toNat, queuedFor, List.countP_eq_zero] at hidle
    simpa [hkind, EventKind.issues] using hidle event hevent
  | deliver => rfl
  | timer => rfl
  | fault => rfl

/-- Before the first operations are pumped, an execution is in step with the one on the operations
that it issues. -/
theorem Execution.inStep_unpumped (e : Execution N data workload codec seed)
    (hrouted : ∀ event ∈ e.taken,
      RoutedHome (resolveOps data workload seed) e.prepared.nodeCount.toNat event)
    {core : SchedCore N} {nodes : List (Option N.State)}
    (hnodes : startNodes codec e.prepared = .ok (core, nodes)) :
    InStep (resolveOps data workload seed) (collectOps e.result)
      (fun p ↦ issueCount p e.taken)
      (unpumped (resolveOps data workload seed) e.prepared.nodeCount core nodes)
      (unpumped (collectOps e.result) e.prepared.nodeCount core nodes) := by
  have hsteps := startNodes_steps hnodes
  have hgated : Gated (fun _ ↦ 0) core := (gated_prepared e.prepare_eq).coreSteps hsteps
  have hqueue := (queueProperty_queueInv []).coreSteps hsteps (queueInv_prepared e.prepare_eq)
  obtain ⟨hcount, hqueued, -⟩ :=
    streamed_unpumped (resolveOps data workload seed) e.prepare_eq hnodes
  have hnone := isClientOp_of_startNodes e.prepare_eq hnodes
  refine ⟨.of_no_clientOp hqueue.fresh hnone, rfl, ?_, rfl, hgated, hgated, fun p _ ↦ ?_,
    fun p hp ↦ ?_⟩
  · change nodes.length = core.nodeCount.toNat
    rw [hcount]
    exact length_startNodes hnodes
  · rintro ⟨event, hevent, hissues, -⟩
    have hclient := hnone event hevent
    rw [EventKind.isClientOp_of_issues hissues] at hclient
    cases hclient
  · change (groupOps (collectOps e.result) e.prepared.nodeCount.toNat p).map
        (seen (collectOps e.result) p core.nodeCount.toNat) =
      ((groupOps (resolveOps data workload seed) e.prepared.nodeCount.toNat p).map
        (seen (resolveOps data workload seed) p core.nodeCount.toNat)).take
          (issueCount p e.taken - queuedFor core ⟨.ofNat p⟩)
    change p < core.nodeCount.toNat at hp
    rw [hqueued p hp, Nat.sub_zero, hcount, ← List.map_take]
    rw [hcount] at hp
    have hlook : ∀ event ∈ e.taken, ∀ index op, event.kind = .clientOp ⟨.ofNat p⟩ index →
        (resolveOps data workload seed)[index]? = some op →
        ((FrozenOp.new ⟨.ofNat p⟩ op.op).op,
            target (.new ⟨.ofNat p⟩ op.op) ⟨.ofNat p⟩ e.prepared.nodeCount.toNat) =
          (op.op, target op ⟨.ofNat p⟩ e.prepared.nodeCount.toNat) := by
      intro event hevent index op hkind hop
      rw [hrouted event hevent _ index op hkind hop]
      rfl
    have hissued := filter_issuedOps
      (fun op ↦ (op.op, target op ⟨.ofNat p⟩ e.prepared.nodeCount.toNat)) e.clients hp hlook
    rw [← e.issuedBy_taken hp]
    refine Eq.trans ?_ hissued
    rw [← e.collectOps_eq]
    exact groupOps_map (collectOps e.result) e.prepared.nodeCount.toNat p
      (Option.map fun op ↦ (op.op, target op ⟨.ofNat p⟩ e.prepared.nodeCount.toNat))

/-- A plan prepares alike on other operations. Assumes: the horizon is the same. -/
theorem prepareCore_dataWithOps (N : Node) {data : PlanData} {ops : List FrozenOp}
    (h : runHorizon (dataWithOps data ops) = runHorizon data) (seed : Seed) :
    prepareCore N (dataWithOps data ops) seed = prepareCore N data seed := by
  rw [prepareCore_eq, prepareCore_eq, h]
  rfl

/-- A plan runs on the operations of one of its executions, in step with it to the end. Assumes: the
horizon is the same, and every operation was handed to the node of its own process. -/
theorem Execution.exists_rerun (e : Execution N data workload codec seed)
    (workload' : Option Strategy)
    (hhorizon : runHorizon (dataWithOps data (collectOps e.result)) = runHorizon data)
    (hrouted : ∀ event ∈ e.taken,
      RoutedHome (resolveOps data workload seed) e.prepared.nodeCount.toNat event) :
    ∃ e' : Execution N (dataWithOps data (collectOps e.result)) workload' codec seed,
      InStep (resolveOps data workload seed) (collectOps e.result) (fun _ ↦ 0)
        (lastState e.started e.steps) (lastState e'.started e'.steps) := by
  have hprepare : prepareCore N (dataWithOps data (collectOps e.result)) seed = .ok e.prepared :=
    (prepareCore_dataWithOps N hhorizon seed).trans e.prepare_eq
  obtain ⟨core, nodes, hnodes, hpump⟩ := startRun_eq_ok.mp e.start_eq
  obtain ⟨hqueue, hnow⟩ := e.started_queueInv
  have hgated := gated_started e.prepare_eq e.start_eq
  have hcount : (unpumped (resolveOps data workload seed) e.prepared.nodeCount core
      nodes).core.nodeCount = e.started.core.nodeCount := by
    rw [(pumpClientOps_frame hpump).2]
  obtain ⟨started', hpump', hstarted⟩ := (e.inStep_unpumped hrouted hnodes).pumpClientOps hpump
    (fun p _ hlive ↦ e.loop.one_le_issueCount hqueue hnow hlive)
    (fun p hp hdead ↦ e.loop.issueCount_eq_zero hqueue hgated (hcount ▸ hp) hdead)
  have hstart' : startRun codec (collectOps e.result) e.prepared = .ok started' :=
    startRun_eq_ok.mpr ⟨core, nodes, hnodes, hpump'⟩
  obtain ⟨steps', final', hloop', hlast⟩ := hstarted.loop e.loop hqueue
    (queueInv_started hprepare hstart').1 hnow
  exact ⟨⟨e.prepared, started', steps', final', hprepare, hstart', hloop'⟩, hlast⟩

end Executions

/-! ### The results of the two runs -/

/-- The history that was recorded when the loop ended, followed by the same indeterminate
completions up to their times. -/
def SameUpToClosing (recorded entries entries' : List OpEntry) : Prop :=
  ∃ closed closed', entries = recorded ++ closed ∧ entries' = recorded ++ closed' ∧
    List.Forall₂ (fun a b : OpEntry ↦ a.kind = .info ∧ b = { a with time := b.time }) closed closed'

/-- Two cores with the same open operations and events, whose histories are the same up to the
completions that were appended since. -/
structure ClosedAlike (recorded : List OpEntry) (core core' : SchedCore N) : Prop where
  pending : core'.pendingOps = core.pendingOps
  events : core'.events = core.events
  history : SameUpToClosing recorded core.history.entries core'.history.entries

namespace ClosedAlike

variable {recorded : List OpEntry} {core core' : SchedCore N}

theorem closeOp (h : ClosedAlike recorded core core') (token : OpToken) (value : Value) :
    ClosedAlike recorded (core.closeOp token .info value) (core'.closeOp token .info value) := by
  have hpending : core'.pending token = core.pending token := by
    rw [SchedCore.pending, SchedCore.pending, h.pending]
  unfold SchedCore.closeOp
  rw [hpending]
  cases core.pending token with
  | none => exact h
  | some op =>
    obtain ⟨closed, closed', hentries, hentries', hall⟩ := h.history
    have hlength : core'.history.entries.length = core.history.entries.length := by
      rw [hentries, hentries', List.length_append, List.length_append, hall.length_eq]
    refine ⟨?_, h.events, closed ++ [_], closed' ++ [_],
      (congrArg (· ++ [_]) hentries).trans (List.append_assoc _ _ _),
      (congrArg (· ++ [_]) hentries').trans (List.append_assoc _ _ _), ?_⟩
    · change core'.pendingOps.filter _ = core.pendingOps.filter _
      rw [h.pending]
    · refine List.rel_append hall (.cons ⟨rfl, ?_⟩ .nil)
      change OpEntry.mk (.ofNat core'.history.entries.length) _ _ _ _ _ = _
      rw [hlength]

theorem closeAll (h : ClosedAlike recorded core core') (tokens : List ℕ) :
    ClosedAlike recorded (core.closeAll tokens) (core'.closeAll tokens) := by
  induction tokens generalizing core core' with
  | nil => exact h
  | cons token rest ih => exact ih (h.closeOp ⟨token⟩ .nil)

end ClosedAlike

section Executions

variable {data : PlanData} {workload : Option Strategy} {seed : Seed}

/-- The core of an execution when its loop ended. -/
theorem Execution.final_eq (e : Execution N data workload codec seed) :
    e.final.frames = (lastState e.started e.steps).frames ∧
      e.final.core = { (lastState e.started e.steps).core with
        queue := e.final.core.queue, now := e.final.core.now } := by
  obtain ⟨hstops, hfinal⟩ := e.loop.stops
  exact ⟨by rw [hfinal], hstops.core_eq⟩

/-- Two executions whose last states are in step have equal frames and events, and histories that
are equal up to the times of the last completions. -/
theorem Execution.result_of_inStep {data' : PlanData} {workload' : Option Strategy}
    {future : ℕ → ℕ} (e : Execution N data workload codec seed)
    (e' : Execution N data' workload' codec seed)
    (h : InStep ops ops' future (lastState e.started e.steps) (lastState e'.started e'.steps)) :
    e'.result.worldTrace.frames = e.result.worldTrace.frames ∧
      e'.result.events = e.result.events ∧
      SameUpToClosing e.final.core.history.entries e.result.history.entries
        e'.result.history.entries := by
  obtain ⟨hframes, hcore⟩ := e.final_eq
  obtain ⟨hframes', hcore'⟩ := e'.final_eq
  have hlast := h.view.core_eq
  have halike : ClosedAlike e.final.core.history.entries e.final.core e'.final.core := by
    have hhistory : e'.final.core.history = e.final.core.history := by
      rw [hcore', hcore, hlast]
    refine ⟨?_, ?_, [], [], (List.append_nil _).symm, ?_, .nil⟩
    · rw [hcore', hcore, hlast]
    · rw [hcore', hcore, hlast]
    · rw [hhistory, List.append_nil]
  have htokens : e'.final.core.pendingOps.map (·.1) = e.final.core.pendingOps.map (·.1) := by
    rw [halike.pending]
  have hclosed := halike.closeAll (e.final.core.pendingOps.map (·.1))
  refine ⟨?_, ?_, ?_⟩
  · change e'.final.frames = e.final.frames
    rw [hframes', hframes, h.frames]
  · change (e'.final.core.closeAll (e'.final.core.pendingOps.map (·.1))).events = _
    rw [htokens]
    exact hclosed.events
  · change SameUpToClosing _ _
      (e'.final.core.closeAll (e'.final.core.pendingOps.map (·.1))).history.entries
    rw [htokens]
    exact hclosed.history

/-- Pinning the operations leaves the horizon of a plan that is no replay alone. -/
theorem runHorizon_dataWithOps (h : data.replay = none) (ops : List FrozenOp) :
    runHorizon (dataWithOps data ops) = runHorizon data := by
  apply runHorizon_congr
  rw [horizonFaults, horizonFaults, h]
  cases hfaults : data.faults with
  | none => simp [dataWithOps, hfaults, latestFault, Faults.swarm, Faults.script, Scenario.new]
  | some faults => simp [dataWithOps, hfaults]

/-- Running a plan again on the operations of one of its runs gives the same frames, the same events
and the same history, up to the times at which the last open operations are closed. Assumes: the
plan is no replay, and no operation of its stream carries a route. -/
theorem runDeterministic_dataWithOps {fuel : ℕ} {nodeDef : Option NodeDef} {run : TypedRun N}
    (workload' : Option Strategy) (hreplay : data.replay = none)
    (hroutes : ∀ op ∈ resolveOps data workload seed, op.route = none)
    (h : runDeterministic fuel data nodeDef workload codec seed = .ok (.ok run)) :
    ∃ fuel' rerun, runDeterministic fuel' (dataWithOps data (collectOps run)) nodeDef workload'
        codec seed = .ok (.ok rerun) ∧
      rerun.worldTrace.frames = run.worldTrace.frames ∧ rerun.events = run.events ∧
      ∃ e : Execution N data workload codec seed, e.result = run ∧
        SameUpToClosing e.final.core.history.entries run.history.entries
          rerun.history.entries := by
  have hnode : nodeDef ≠ some .spawnEach := by
    rintro rfl
    simp [runDeterministic] at h
  obtain ⟨e, rfl⟩ := exists_execution h
  obtain ⟨e', hstep⟩ := e.exists_rerun workload' (runHorizon_dataWithOps hreplay _)
    fun event _ ↦ routedHome_of_route_eq_none hroutes _ event
  obtain ⟨fuel', hfuel⟩ := (runDeterministic_eq_ok_iff hnode e'.result).mpr ⟨e', rfl⟩
  obtain ⟨hframes, hevents, hhistory⟩ := e.result_of_inStep e' hstep
  exact ⟨fuel', e'.result, hfuel, hframes, hevents, e, rfl, hhistory⟩

end Executions

/-- A strategy that samples operations of the processes in turn. -/
def turnStrategy : Strategy where
  Runner := ℕ
  fromSeed _ := (0 : ℕ)
  newTree := fun turn : ℕ ↦ (some (.new ⟨.ofNat turn⟩ .nil), turn.succ)

/-- A run of two counting nodes on three sampled operations, and its run on the operations that it
issued. -/
theorem counter_dataWithOps :
    ∃ run fuel' rerun,
      runDeterministic 8 ⟨2, none, none, 3, none⟩ none (some turnStrategy) (some counterCodec) ⟨0⟩ =
        .ok (.ok run) ∧
      runDeterministic fuel' (dataWithOps ⟨2, none, none, 3, none⟩ (collectOps run)) none none
        (some counterCodec) ⟨0⟩ = .ok (.ok rerun) ∧
      rerun.worldTrace.frames = run.worldTrace.frames ∧ rerun.events = run.events := by
  obtain ⟨run, hrun⟩ := exists_run_of_isSome (N := counter)
    (x := runDeterministic 8 ⟨2, none, none, 3, none⟩ none (some turnStrategy)
      (some counterCodec) ⟨0⟩) (by decide +kernel)
  have hroutes : ∀ op ∈ resolveOps ⟨2, none, none, 3, none⟩ (some turnStrategy) ⟨0⟩,
      op.route = none := by
    change ∀ op ∈ [FrozenOp.new ⟨0⟩ .nil, .new ⟨1⟩ .nil, .new ⟨2⟩ .nil], op.route = none
    simp [FrozenOp.new]
  obtain ⟨fuel', rerun, hrerun, hframes, hevents, -⟩ :=
    runDeterministic_dataWithOps none rfl hroutes hrun
  exact ⟨run, fuel', rerun, hrun, hrerun, hframes, hevents⟩

end Propsim.Simulator
