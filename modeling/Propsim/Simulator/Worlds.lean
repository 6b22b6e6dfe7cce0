import Propsim.Simulator.Properties
import Propsim.Simulator.Rerun

/-!
# The worlds that properties see

A frame holds the node states of one moment, but every frame of a run is evaluated with the history
of the whole run. The history that was recorded when a frame was taken is that of the first state
with the frame (`Execution.historyAt`). Nothing is recorded before the first frame, and the first
operation of a process is queued below the horizon when the loop starts, so properties see the
history so far in every frame exactly when the run has no operations at all
(`runDeterministic_seesHistorySoFar_iff`).
-/

set_option autoImplicit false
set_option relaxedAutoImplicit false

namespace Propsim.Simulator

open Foundation Interchange Propsim.Core

variable {N : Node} {codec : Option (ClientCodec N)} {ops : List FrozenOp}

/-! ### Frames -/

section Executions

variable {data : PlanData} {workload : Option Strategy} {seed : Seed}

/-- The history recorded when a frame was taken. -/
def Execution.historyAt (e : Execution N data workload codec seed) (k : ℕ) : Option History :=
  (e.states.find? fun state ↦ k < state.frames.length).map (·.core.history)

/-- The world of a frame at the moment when it was taken. -/
def Execution.worldAt (e : Execution N data workload codec seed) (k : ℕ) :
    Option (World N.State) := do
  let frame ← e.result.worldTrace.frames[k]?
  let history ← e.historyAt k
  pure ⟨frame.2, history, frame.1⟩

/-- Every predicate is evaluated on every frame as on the world at the moment of the frame, and sees
no entry that is later than the frame. -/
structure SeesHistorySoFar (e : Execution N data workload codec seed) : Prop where
  world : ∀ k frame, e.result.worldTrace.frames[k]? = some frame →
    ∃ world, e.worldAt k = some world ∧ ∀ prop : Property N.State,
      evalFrame prop e.result.worldTrace frame = prop.predicate world
  passed : ∀ frame ∈ e.result.worldTrace.frames, ∀ entry ∈ e.result.worldTrace.history.entries,
    entry.time.nanos ≤ nowNanos frame.1

/-- Pumping takes no frame. -/
theorem frames_pumpClientOps {state next : RunState N} (h : pumpClientOps state = .ok next) :
    next.frames = state.frames := by
  refine foldlM_invariant (P := fun s : RunState N ↦ s.frames = state.frames)
    (fun _ _ s s' hs hpump ↦ ?_) rfl h
  cases pumps_of_pumpProcess hpump with
  | busy => exact hs
  | drained => exact hs
  | issue => exact hs

/-- A turn keeps the frames. -/
theorem Turn.frames_prefix {state next : RunState N} {event : Scheduled N}
    (h : Turn codec ops state event next) : state.frames <+: next.frames := by
  cases h with
  | skip => exact List.prefix_rfl
  | fire hpop hbelow hresolve hhandle =>
    obtain ⟨core, nodes, pumped, -, hpump, rfl⟩ := exists_pump_of_handle hhandle
    have hframes := frames_pumpClientOps hpump
    change state.frames <+: pumped.frames ++ _
    rw [hframes]
    exact List.prefix_append _ _

/-- A loop keeps the frames of each of its states. -/
theorem Loop.frames_prefix {state final : RunState N} {steps : List (Scheduled N × RunState N)}
    (h : Loop codec ops state steps final) :
    ∀ s ∈ state :: steps.map (·.2), s.frames <+: final.frames := by
  induction h with
  | stop => simp
  | @turn state next final event steps hturn _ ih =>
    intro s hs
    rcases List.mem_cons.mp hs with rfl | hs
    · exact hturn.frames_prefix.trans (ih next List.mem_cons_self)
    · exact ih s hs

/-- The first frame is taken before the loop starts. -/
theorem Execution.length_frames_started (e : Execution N data workload codec seed) :
    e.started.frames.length = 1 := by
  obtain ⟨core, nodes, -, hpump⟩ := startRun_eq_ok.mp e.start_eq
  rw [frames_pumpClientOps hpump]
  rfl

/-- The loop stops with the frames that it has taken. -/
theorem Execution.frames_final (e : Execution N data workload codec seed) :
    e.final.frames = (lastState e.started e.steps).frames := by
  rw [e.loop.stops.2]

theorem Execution.frames_prefix (e : Execution N data workload codec seed) :
    e.started.frames <+: e.final.frames :=
  e.loop.frames_prefix _ List.mem_cons_self

/-- Every frame was taken in some state. -/
theorem Execution.exists_historyAt (e : Execution N data workload codec seed) {k : ℕ}
    (hk : k < e.final.frames.length) :
    ∃ state ∈ e.states, e.historyAt k = some state.core.history := by
  have hsome : (e.states.find? fun state ↦ k < state.frames.length).isSome := by
    rw [List.find?_isSome]
    refine ⟨lastState e.started e.steps, List.mem_of_getElem? e.states_last, ?_⟩
    simpa [← e.frames_final] using hk
  obtain ⟨state, hstate⟩ := Option.isSome_iff_exists.mp hsome
  exact ⟨state, List.mem_of_find?_eq_some hstate, by rw [Execution.historyAt, hstate]; rfl⟩

/-! ### Runs without operations -/

/-- A history that records no operation is empty. -/
theorem Recorded.entries_eq_nil {core : SchedCore N} (h : Recorded core)
    (hnone : invoked core = []) : core.history.entries = [] := by
  refine h.alternates.eq_nil fun entry hentry hkind ↦ ?_
  rw [invoked, List.map_eq_nil_iff, List.filter_eq_nil_iff] at hnone
  exact hnone entry hentry (by simpa using hkind)

theorem Execution.entries_started (e : Execution N data workload codec seed) :
    e.started.core.history.entries = [] :=
  (e.recorded _ List.mem_cons_self).entries_eq_nil e.invoked_started

/-- No state of a run without operations has recorded anything. -/
theorem Execution.entries_eq_nil (e : Execution N data workload codec seed)
    (hops : resolveOps data workload seed = []) :
    ∀ state ∈ e.states, state.core.history.entries = [] := by
  intro state hstate
  refine (e.recorded state hstate).entries_eq_nil ?_
  refine e.loop.invariant (P := fun s ↦ invoked s.core = []) (fun s event next hs hturn ↦ ?_)
    e.invoked_started state hstate
  rw [hturn.invoked_eq.1, hs, hops]
  cases event.kind with
  | clientOp process index => rfl
  | deliver => rfl
  | timer => rfl
  | fault => rfl

theorem Execution.result_entries_eq_nil (e : Execution N data workload codec seed)
    (hops : resolveOps data workload seed = []) : e.result.history.entries = [] := by
  have hnone : collectOps e.result = [] := by
    rw [e.collectOps_eq, hops, issuedOps, List.filterMap_eq_nil_iff]
    intro event _
    cases event.kind with
    | clientOp process index => rfl
    | deliver => rfl
    | timer => rfl
    | fault => rfl
  refine e.wellFormed.alternates.eq_nil fun entry hentry hkind ↦ ?_
  rw [collectOps, List.map_eq_nil_iff, List.filter_eq_nil_iff] at hnone
  exact hnone entry hentry (by simpa using hkind)

/-! ### Runs with operations -/

/-- The operations that are queued when the loop starts are due below the horizon. -/
theorem Execution.fireAt_started (e : Execution N data workload codec seed) :
    ∀ event ∈ e.started.core.queue.toList, event.kind.isClientOp = true →
      event.fireAt < e.started.core.horizon := by
  obtain ⟨core, nodes, hnodes, hpump⟩ := startRun_eq_ok.mp e.start_eq
  have hcore := (pumpClientOps_frame hpump).2
  have hnow : core.now = .zero := by
    rw [← now_started e.prepare_eq e.start_eq, hcore]
    rfl
  have hhorizon : .fromSecs 10 ≤ core.horizon := by
    have hsame : e.started.core.horizon = core.horizon := by
      rw [hcore]
      rfl
    rw [← hsame, ← e.horizon_eq]
    exact e.le_horizon
  -- Each operation is scheduled one millisecond after the start.
  have hsoon := foldlM_invariant
    (P := fun s : RunState N ↦ s.core.now = .zero ∧ .fromSecs 10 ≤ s.core.horizon ∧
      ∀ event ∈ s.core.queue.toList, event.kind.isClientOp = true →
        event.fireAt < s.core.horizon)
    (fun p _ s s' ⟨hzero, hwindow, hs⟩ hturn ↦ ?_) ⟨hnow, hhorizon, ?_⟩ hpump
  · exact hsoon.2.2
  · cases pumps_of_pumpProcess hturn with
    | busy => exact ⟨hzero, hwindow, hs⟩
    | drained => exact ⟨hzero, hwindow, hs⟩
    | @issue index rest fireAt hfree hstream hsum =>
      refine ⟨hzero, hwindow, fun event hevent hclient ↦ ?_⟩
      rcases PriorityQueue.mem_push.mp hevent with rfl | hevent
      · refine lt_of_lt_of_le (Duration.lt_iff.mpr ?_) hwindow
        rw [nanos_of_addDuration hsum, hzero]
        decide +kernel
      · exact hs event hevent hclient
  · intro event hevent hclient
    rw [isClientOp_of_startNodes e.prepare_eq hnodes event hevent] at hclient
    cases hclient

/-- The first operation of a process is queued below the horizon when the loop starts. -/
theorem Execution.hasLive_started (e : Execution N data workload codec seed) {p : ℕ}
    (hp : p < e.prepared.nodeCount.toNat)
    (hstream : groupOps (resolveOps data workload seed) e.prepared.nodeCount.toNat p ≠ []) :
    HasLive e.started.core p := by
  obtain ⟨core, nodes, hnodes, hpump⟩ := startRun_eq_ok.mp e.start_eq
  have hgated : Gated (fun _ ↦ 0) core :=
    (gated_prepared e.prepare_eq).coreSteps (startNodes_steps hnodes)
  have hcount := e.nodeCount_eq
  have hp' : p < e.started.core.nodeCount.toNat := by rwa [hcount]
  have hidle : pendingFor e.started.core ⟨.ofNat p⟩ = 0 := by
    have hsum := hgated.accounted p (by rwa [(streamed_unpumped [] e.prepare_eq hnodes).1])
    have hsame : pendingFor e.started.core ⟨.ofNat p⟩ = pendingFor core ⟨.ofNat p⟩ := by
      rw [(pumpClientOps_frame hpump).2]
      rfl
    omega
  have hqueued : 0 < queuedFor e.started.core ⟨.ofNat p⟩ := by
    have hparts : issuedBy ⟨.ofNat p⟩ e.started.core.queue.toList ++ e.started.perProcess p =
        groupOps (resolveOps data workload seed) e.started.core.nodeCount.toNat p :=
      streamed_started e.prepare_eq e.start_eq p hp'
    rw [hcount] at hparts
    by_cases hleft : e.started.perProcess p = []
    · rw [hleft, List.append_nil] at hparts
      rw [← length_issuedBy_queue, hparts]
      exact List.length_pos_iff.mpr hstream
    · have hsupplied :=
        @supplied_pumpClientOps _ (unpumped _ _ core nodes) _ hgated hpump
      have hflight := hsupplied p hp' hleft
      omega
  obtain ⟨event, hevent, hissues⟩ := List.countP_pos_iff.mp hqueued
  exact ⟨event, hevent, hissues,
    e.fireAt_started event hevent (EventKind.isClientOp_of_issues hissues)⟩

/-- A run with operations records an Invoke. -/
theorem Execution.collectOps_ne_nil (e : Execution N data workload codec seed)
    (hops : resolveOps data workload seed ≠ []) : collectOps e.result ≠ [] := by
  obtain ⟨op, rest, hstream⟩ := List.exists_cons_of_ne_nil hops
  have hcount : 0 < e.prepared.nodeCount.toNat := by
    rw [e.prepared_nodeCount]
    exact nodeCount_pos data
  have hgroup : groupOps (resolveOps data workload seed) e.prepared.nodeCount.toNat
      (op.process.id.toNat % e.prepared.nodeCount.toNat) ≠ [] := by
    rw [← List.length_pos_iff, length_groupOps, hstream, streamOf]
    exact List.length_pos_of_mem (List.mem_filter.mpr ⟨List.mem_cons_self, by simp⟩)
  have hissued := e.loop.one_le_issueCount e.started_queueInv.1 e.started_queueInv.2
    (e.hasLive_started (Nat.mod_lt _ hcount) hgroup)
  obtain ⟨index, hindex⟩ := List.exists_mem_of_length_pos hissued
  obtain ⟨event, hevent, hissues⟩ := List.mem_filterMap.mp hindex
  rw [e.collectOps_eq]
  intro hnone
  rw [issuedOps, List.filterMap_eq_nil_iff] at hnone
  have hop := hnone event hevent
  cases hkind : event.kind with
  | clientOp process index =>
    obtain ⟨-, op, hlook⟩ := e.clients event hevent process index hkind
    simp [hkind, EventKind.issuedOp, hlook] at hop
  | deliver => simp [hkind, EventKind.issuedBy] at hissues
  | timer => simp [hkind, EventKind.issuedBy] at hissues
  | fault => simp [hkind, EventKind.issuedBy] at hissues

/-! ### What properties see -/

/-- Properties see the history so far exactly in the runs without operations. -/
theorem Execution.seesHistorySoFar_iff (e : Execution N data workload codec seed) :
    SeesHistorySoFar e ↔ resolveOps data workload seed = [] := by
  constructor
  · intro h
    by_contra hops
    -- Nothing is recorded when the first frame is taken.
    have hlength : 0 < e.started.frames.length := by simp [e.length_frames_started]
    have hframe : e.final.frames[0]? = some e.started.frames[0] := by
      obtain ⟨later, hlater⟩ := e.frames_prefix
      rw [← hlater, List.getElem?_append_left hlength, List.getElem?_eq_getElem hlength]
    obtain ⟨world, hworld, hsame⟩ := h.world 0 _ hframe
    have hhistory : world.history.entries = [] := by
      have hfirst : e.historyAt 0 = some e.started.core.history := by
        simp [Execution.historyAt, Execution.states, hlength]
      have hresult : e.result.worldTrace.frames[0]? = some e.started.frames[0] := hframe
      simp only [Execution.worldAt, hresult, hfirst] at hworld
      obtain rfl := Option.some.inj hworld
      exact e.entries_started
    have hwhole := hsame ⟨"", .always, fun world ↦ world.history.entries.isEmpty, none⟩
    simp only [evalFrame, hhistory, List.isEmpty_nil, List.isEmpty_iff] at hwhole
    refine e.collectOps_ne_nil hops ?_
    have hentries : e.result.history.entries = [] := hwhole
    rw [collectOps, hentries]
    rfl
  · intro hops
    have hresult : e.result.history.entries = [] := e.result_entries_eq_nil hops
    refine ⟨fun k frame hframe ↦ ?_, fun frame _ entry hentry ↦ ?_⟩
    · obtain ⟨state, hstate, hhistory⟩ :=
        e.exists_historyAt (List.getElem?_eq_some_iff.mp hframe).1
      refine ⟨⟨frame.2, state.core.history, frame.1⟩, ?_, fun prop ↦ ?_⟩
      · simp [Execution.worldAt, hframe, hhistory]
      · have hsame : e.result.worldTrace.history = state.core.history :=
          congrArg History.mk (hresult.trans (e.entries_eq_nil hops state hstate).symm)
        rw [evalFrame, hsame]
    · have hempty : e.result.worldTrace.history.entries = [] := hresult
      rw [hempty] at hentry
      cases hentry

/-- In every run, properties see the history so far in each frame exactly when the run has no
operations. -/
theorem runDeterministic_seesHistorySoFar_iff {fuel : ℕ} {nodeDef : Option NodeDef}
    {run : TypedRun N}
    (h : runDeterministic fuel data nodeDef workload codec seed = .ok (.ok run)) :
    ∃ e : Execution N data workload codec seed, e.result = run ∧
      (SeesHistorySoFar e ↔ resolveOps data workload seed = []) := by
  obtain ⟨e, he⟩ := exists_execution h
  exact ⟨e, he, e.seesHistorySoFar_iff⟩

end Executions

/-- A run with a crash, a restart and two clients has operations. -/
theorem counter_seesHistorySoFar_iff :
    ∃ run, runDeterministic 8 counterScript none none (some counterCodec) ⟨0⟩ = .ok (.ok run) ∧
      ∃ e : Execution counter counterScript none (some counterCodec) ⟨0⟩, e.result = run ∧
        (SeesHistorySoFar e ↔ resolveOps counterScript none ⟨0⟩ = []) := by
  obtain ⟨run, hrun⟩ := exists_run_of_isSome (N := counter)
    (x := runDeterministic 8 counterScript none none (some counterCodec) ⟨0⟩) (by decide +kernel)
  exact ⟨run, hrun, runDeterministic_seesHistorySoFar_iff hrun⟩

/-- No entry of the history is later than the clock. -/
def unforeseen : Property ℕ :=
  ⟨"unforeseen", .always, fun world ↦ world.history.entries.all fun entry ↦
    entry.time.nanos ≤ nowNanos world.now, none⟩

/-- The run is reported to record entries later than its own clock. -/
theorem counterScript_not_seesHistorySoFar :
    ∃ run, runDeterministic 8 counterScript none none (some counterCodec) ⟨0⟩ = .ok (.ok run) ∧
      (evaluateOne unforeseen run.worldTrace run.events).toOption.map (·.isValid) = some false ∧
      ∀ e : Execution counter counterScript none (some counterCodec) ⟨0⟩, ¬SeesHistorySoFar e := by
  obtain ⟨run, hrun⟩ := exists_run_of_isSome (N := counter)
    (x := runDeterministic 8 counterScript none none (some counterCodec) ⟨0⟩) (by decide +kernel)
  have hverdict : ((runDeterministic 8 counterScript none none (some counterCodec)
      ⟨0⟩).toOption.bind Except.toOption).map (fun run ↦
        (evaluateOne unforeseen run.worldTrace run.events).toOption.map (·.isValid)) =
      some (some false) := by
    decide +kernel
  rw [hrun] at hverdict
  refine ⟨run, hrun, Option.some.inj hverdict, fun e h ↦ ?_⟩
  have hnone := e.seesHistorySoFar_iff.mp h
  cases hnone

end Propsim.Simulator
