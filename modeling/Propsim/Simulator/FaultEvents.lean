import Propsim.Simulator.CrashWindow

/-!
# The fault events of a run

Only lowering schedules fault events, so the fault events of a queue come out of it unchanged and in
queue order (`Loop.faultEvents_eq`), and those below the horizon are all applied
(`Execution.faultEvents_taken`). For a scripted timeline the queue order is the order of time, with
ties in script order, and the run events are those of the script (`runDeterministic_scripted`).
-/

set_option autoImplicit false
set_option relaxedAutoImplicit false

namespace Propsim.Simulator

open Foundation Interchange Propsim.Core

variable {N : Node} {codec : Option (ClientCodec N)} {ops : List FrozenOp}

/-! ### The fault events of a queue -/

/-- The fault events among events. -/
def faultEvents (events : List (Scheduled N)) : List (Scheduled N) :=
  events.filter fun event ↦ (faultOf event).isSome

theorem mem_faultEvents {events : List (Scheduled N)} {event : Scheduled N} :
    event ∈ faultEvents events ↔ event ∈ events ∧ ∃ action, event.kind = .fault action := by
  rw [faultEvents, List.mem_filter, Option.isSome_iff_exists]
  simp only [faultOf_eq_some_iff]

theorem faultEvents_append (first rest : List (Scheduled N)) :
    faultEvents (first ++ rest) = faultEvents first ++ faultEvents rest :=
  List.filter_append first rest

/-- An event of another kind leaves the queued fault events alone. -/
theorem faultEvents_enqueue (core : SchedCore N) (fireAt : Duration) {kind : EventKind N}
    (h : ∀ action, kind ≠ .fault action) :
    faultEvents (core.enqueue fireAt kind).queue.toList = faultEvents core.queue.toList := by
  have hnone : (faultOf (⟨fireAt, core.seq, kind⟩ : Scheduled N)).isSome = false := by
    cases kind with
    | fault action => exact absurd rfl (h action)
    | deliver => rfl
    | timer => rfl
    | clientOp => rfl
  exact core.queue.filter_push_of_neg hnone

theorem CoreSteps.faultEvents_eq {core core' : SchedCore N} (h : CoreSteps core core') :
    faultEvents core'.queue.toList = faultEvents core.queue.toList := by
  refine h.invariant (P := fun c ↦ faultEvents c.queue.toList = faultEvents core.queue.toList)
    (fun c c' hc hstep ↦ ?_) rfl
  cases hstep with
  | quiet => exact hc
  | enqueue fireAt kind _ hkind =>
    refine (faultEvents_enqueue c fireAt ?_).trans hc
    rintro action rfl
    exact hkind
  | close token value _ =>
    rw [(sameQueue_closeOp c token _ value).queue_eq]
    exact hc

theorem faultEvents_pumpClientOps {state next : RunState N} (h : pumpClientOps state = .ok next) :
    faultEvents next.core.queue.toList = faultEvents state.core.queue.toList :=
  pumpClientOps_core
    (P := fun c ↦ faultEvents c.queue.toList = faultEvents state.core.queue.toList)
    (fun core fireAt _ _ _ hcore ↦ (faultEvents_enqueue core fireAt (by simp)).trans hcore) h rfl

/-- A turn takes a fault event from the queue only when it is its event. -/
theorem Turn.faultEvents_eq {state next : RunState N} {event : Scheduled N}
    (h : Turn codec ops state event next) :
    faultEvents state.core.queue.toList =
      faultEvents [event] ++ faultEvents next.core.queue.toList := by
  obtain ⟨queue, hpop, -⟩ := h.pop_eq
  have hrest : faultEvents next.core.queue.toList = faultEvents queue.toList := by
    cases h with
    | skip hpop' hbelow hresolve =>
      obtain ⟨-, rfl⟩ := Prod.mk.inj (Option.some.inj (hpop.symm.trans hpop'))
      rw [(sameQueue_resolve hresolve).queue_eq]
    | @fire queue' core popped next hpop' hbelow hresolve hhandle =>
      obtain ⟨-, rfl⟩ := Prod.mk.inj (Option.some.inj (hpop.symm.trans hpop'))
      obtain ⟨dispatched, nodes, pumped, hdispatch, hpump, rfl⟩ := exists_pump_of_handle hhandle
      have hdispatched : faultEvents dispatched.queue.toList = faultEvents queue.toList := by
        have hresolved := congrArg PriorityQueue.toList (sameQueue_resolve hresolve).queue_eq
        rw [← hresolved]
        rcases dispatch_steps hdispatch with ⟨hsteps, -⟩ | ⟨process, index, op, f, -, -, hsteps⟩
        · exact hsteps.faultEvents_eq
        · exact hsteps.faultEvents_eq
      exact (faultEvents_pumpClientOps hpump).trans hdispatched
  rw [hrest, PriorityQueue.pop_eq_some_iff.mp hpop, ← faultEvents_append, List.singleton_append]

/-- The fault events that a loop takes, followed by those that are left, are those that were queued,
in the same order. -/
theorem Loop.faultEvents_eq {state final : RunState N} {steps : List (Scheduled N × RunState N)}
    (h : Loop codec ops state steps final) :
    faultEvents state.core.queue.toList =
      faultEvents (steps.map (·.1)) ++ faultEvents (lastState state steps).core.queue.toList := by
  induction h with
  | stop => rfl
  | turn hturn _ ih =>
    rw [hturn.faultEvents_eq, ih, lastState_cons, ← List.append_assoc, ← faultEvents_append]
    rfl

section Executions

variable {data : PlanData} {workload : Option Strategy} {seed : Seed}

/-- Lowering schedules fault events only. -/
theorem prepared_faultEvents {prepared : SchedCore N}
    (hprepare : prepareCore N data seed = .ok prepared) :
    faultEvents prepared.queue.toList = prepared.queue.toList := by
  have hall : ∀ event ∈ prepared.queue.toList, ∃ action, event.kind = .fault action := by
    refine prepared_core
      (P := fun core ↦ ∀ event ∈ core.queue.toList, ∃ action, event.kind = .fault action)
      (fun core fireAt action h event hevent ↦ ?_) (fun _ _ h ↦ h) hprepare
      fun _ _ event hevent ↦ by simp [SchedCore.new] at hevent
    rcases PriorityQueue.mem_push.mp hevent with rfl | hevent
    · exact ⟨action, rfl⟩
    · exact h event hevent
  refine List.filter_eq_self.mpr fun event hevent ↦ ?_
  obtain ⟨action, hkind⟩ := hall event hevent
  rw [faultOf_eq_some_iff.mpr hkind]
  rfl

theorem Execution.started_faultEvents (e : Execution N data workload codec seed) :
    faultEvents e.started.core.queue.toList = e.prepared.queue.toList := by
  obtain ⟨core, nodes, hnodes, hpump⟩ := startRun_eq_ok.mp e.start_eq
  have hpumped : faultEvents e.started.core.queue.toList = faultEvents core.queue.toList :=
    faultEvents_pumpClientOps hpump
  rw [hpumped, (startNodes_steps hnodes).faultEvents_eq, prepared_faultEvents e.prepare_eq]

/-- The fault events of an execution are those that lowering scheduled, in the order of its queue.
Assumes: they are below the horizon. -/
theorem Execution.faultEvents_taken (e : Execution N data workload codec seed)
    (hbelow : ∀ event ∈ e.prepared.queue.toList, event.fireAt < e.final.core.horizon) :
    faultEvents e.taken = e.prepared.queue.toList := by
  have hparts := e.loop.faultEvents_eq
  rw [e.started_faultEvents] at hparts
  have hnone : faultEvents (lastState e.started e.steps).core.queue.toList = [] := by
    refine List.eq_nil_iff_forall_not_mem.mpr fun event hevent ↦ ?_
    have hlt := hbelow event (hparts ▸ List.mem_append_right _ hevent)
    obtain ⟨hstops, -⟩ := e.loop.stops
    rw [hstops.keeps.1] at hlt
    exact absurd (hstops.horizon_le.1 event (mem_faultEvents.mp hevent).1) (not_le.mpr hlt)
  rw [hnone, List.append_nil] at hparts
  exact hparts.symm

/-- The faults that an execution applies, with their times. -/
def applied (e : Execution N data workload codec seed) : List (Duration × FaultAction) :=
  e.taken.filterMap fun event ↦ (faultOf event).map fun action ↦ (event.fireAt, action)

theorem applied_eq_map (e : Execution N data workload codec seed) :
    applied e = (faultEvents e.taken).filterMap fun event ↦
      (faultOf event).map fun action ↦ (event.fireAt, action) := by
  rw [applied, faultEvents, List.filterMap_filter]
  refine List.filterMap_congr fun event _ ↦ ?_
  cases faultOf event <;> rfl

end Executions

/-! ### The run events -/

/-- The run event that a fault records. -/
def runEvent (fault : Duration × FaultAction) : Option RunEvent :=
  match fault.2 with
  | .healAll => some (.networkHealed fault.1)
  | .restart n => some (.nodeRejoined fault.1 n)
  | .partition _ _ => none
  | .crash _ => none

theorem events_closeAll (core : SchedCore N) (tokens : List ℕ) :
    (core.closeAll tokens).events = core.events := by
  obtain ⟨history, pendingOps, hclose⟩ := closeAll_frame core tokens
  rw [hclose]

theorem events_applyFault (core : SchedCore N) (action : FaultAction) :
    (core.applyFault action).2.events = core.events ++ (runEvent (core.now, action)).toList := by
  cases action with
  | partition a b => exact (List.append_nil _).symm
  | healAll => rfl
  | crash n =>
    obtain ⟨history, pendingOps, hcrash⟩ := applyFault_crash core n
    rw [hcrash, runEvent, Option.toList_none, List.append_nil]
  | restart n => rfl

/-- A turn records the run event of its fault, at the time of its event. -/
theorem Turn.events_eq {state next : RunState N} {event : Scheduled N}
    (h : Turn codec ops state event next) :
    next.core.events = state.core.events ++
      (((faultOf event).map fun action ↦ (event.fireAt, action)).bind runEvent).toList := by
  have hnone (hkind : ∀ action, event.kind ≠ .fault action) : faultOf event = none := by
    rw [Option.eq_none_iff_forall_ne_some]
    exact fun action hsome ↦ hkind action (faultOf_eq_some_iff.mp hsome)
  cases h with
  | skip hpop hbelow hresolve =>
    cases resolves_of_resolve hresolve with
    | skipped _ hfault =>
      rw [hnone hfault]
      exact (List.append_nil _).symm
  | fire hpop hbelow hresolve hhandle =>
    rw [(sameCluster_handle hhandle).events_eq]
    cases resolves_of_resolve hresolve with
    | deliver hkind _ =>
      rw [hnone (by simp [hkind])]
      exact (List.append_nil _).symm
    | timer hkind _ _ =>
      rw [hnone (by simp [hkind])]
      exact (List.append_nil _).symm
    | clientOp hkind =>
      rw [hnone (by simp [hkind])]
      exact (List.append_nil _).symm
    | fault hkind =>
      rw [faultOf_eq_some_iff.mpr hkind]
      exact events_applyFault _ _

theorem Loop.events_eq {state final : RunState N} {steps : List (Scheduled N × RunState N)}
    (h : Loop codec ops state steps final) :
    final.core.events = state.core.events ++
      ((steps.map (·.1)).filterMap fun event ↦
        (faultOf event).map fun action ↦ (event.fireAt, action)).filterMap runEvent := by
  induction h with
  | stop hstops =>
    rw [hstops.core_eq]
    exact (List.append_nil _).symm
  | @turn state next final event steps hturn _ ih =>
    rw [ih, hturn.events_eq, List.append_assoc, List.map_cons, List.filterMap_cons]
    refine congrArg (_ ++ ·) ?_
    cases (faultOf event).map fun action ↦ (event.fireAt, action) with
    | none => rfl
    | some fault =>
      rw [Option.bind_some, List.filterMap_cons]
      cases runEvent fault <;> rfl

section Executions

variable {data : PlanData} {workload : Option Strategy} {seed : Seed}

/-- The run events are those of the faults that are applied. -/
theorem Execution.events_eq (e : Execution N data workload codec seed) :
    e.result.events = (applied e).filterMap runEvent := by
  have hstarted : e.started.core.events = [] := by
    refine (sameCluster_started e.start_eq).events_eq.trans ?_
    exact prepared_core (P := fun core ↦ core.events = []) (fun _ _ _ h ↦ h) (fun _ _ h ↦ h)
      e.prepare_eq fun _ _ ↦ rfl
  have hresult : e.result.events = e.final.core.events := events_closeAll _ _
  rw [hresult, e.loop.events_eq, hstarted, List.nil_append]
  rfl

end Executions

/-! ### Scripted timelines -/

/-- A scripted timeline in the order of time, with ties in script order. -/
def inOrder (script : List ScriptedEvent) : List ScriptedEvent :=
  script.mergeSort fun a b ↦ a.fireAt ≤ b.fireAt

/-- The event of an entry of the script, under its position as sequence number. -/
def scriptedEvent (N : Node) (entry : ScriptedEvent × ℕ) : Scheduled N :=
  ⟨entry.1.fireAt, entry.2, .fault (lowerAction entry.1.action)⟩

/-- Scheduling a script, by induction on it from the right. -/
theorem schedule_script (core : SchedCore N) (hqueue : core.queue = .empty) (hseq : core.seq = 0)
    (script : List ScriptedEvent) :
    let scheduled := script.foldl (fun core event ↦
      core.scheduleFault event.fireAt (lowerAction event.action)) core
    scheduled.seq = script.length ∧
      scheduled.queue.toList.Perm (script.zipIdx.map (scriptedEvent N)) := by
  induction script using List.reverseRecOn with
  | nil => simp [hqueue, hseq]
  | append_singleton script event ih =>
    obtain ⟨hcount, hperm⟩ := ih
    simp only [List.foldl_append, List.foldl_cons, List.foldl_nil]
    refine ⟨?_, ?_⟩
    · rw [List.length_append]
      exact congrArg (· + 1) hcount
    · refine (PriorityQueue.perm_push _ _).trans ?_
      rw [List.zipIdx_append, List.map_append, hcount]
      refine (hperm.cons _).trans ?_
      simpa [scriptedEvent] using
        (List.perm_append_singleton (scriptedEvent N (event, script.length))
        (script.zipIdx.map (scriptedEvent N))).symm

/-- The entries of a script under their positions, in the order of time and then of position. -/
def sortedEntries (script : List ScriptedEvent) : List (ScriptedEvent × ℕ) :=
  script.zipIdx.mergeSort (List.zipIdxLE fun a b ↦ a.fireAt ≤ b.fireAt)

theorem map_sortedEntries (script : List ScriptedEvent) :
    (sortedEntries script).map (·.1) = inOrder script := List.mergeSort_zipIdx

theorem key_le_of_zipIdxLE {a b : ScriptedEvent × ℕ}
    (h : List.zipIdxLE (fun a b : ScriptedEvent ↦ decide (a.fireAt ≤ b.fireAt)) a b) :
    (scriptedEvent N a).key ≤ (scriptedEvent N b).key := by
  rw [Scheduled.key, Scheduled.key, Prod.Lex.toLex_le_toLex]
  simp only [List.zipIdxLE, decide_eq_true_eq] at h
  split_ifs at h with hab hba
  · exact .inr ⟨le_antisymm hab hba, of_decide_eq_true h⟩
  · exact .inl (lt_of_not_ge hba)

theorem sorted_sortedEntries (script : List ScriptedEvent) :
    ((sortedEntries script).map (scriptedEvent N)).Pairwise fun first second ↦
      first.key ≤ second.key := by
  rw [List.pairwise_map]
  refine (List.pairwise_mergeSort (List.zipIdxLE_trans fun a b c hab hbc ↦ ?_)
    (List.zipIdxLE_total fun a b ↦ ?_) script.zipIdx).imp key_le_of_zipIdxLE
  · simp only [decide_eq_true_eq] at hab hbc ⊢
    exact hab.trans hbc
  · simpa only [Bool.or_eq_true, decide_eq_true_eq] using le_total a.fireAt b.fireAt

/-- Entries of a script are told apart by their positions. -/
theorem scriptedEvent_inj {script : List ScriptedEvent} {a b : Scheduled N}
    (ha : a ∈ script.zipIdx.map (scriptedEvent N)) (hb : b ∈ script.zipIdx.map (scriptedEvent N))
    (h : a.key = b.key) : a = b := by
  obtain ⟨⟨x, i⟩, hx, rfl⟩ := List.mem_map.mp ha
  obtain ⟨⟨y, j⟩, hy, rfl⟩ := List.mem_map.mp hb
  obtain ⟨-, hseq⟩ := Prod.mk.inj (toLex.injective h)
  obtain rfl : i = j := hseq
  have hsame : x = y := Option.some.inj
    ((List.mem_zipIdx_iff_getElem?.mp hx).symm.trans (List.mem_zipIdx_iff_getElem?.mp hy))
  rw [hsame]

/-- A queue that holds the events of a script holds them in order. -/
theorem toList_of_script {queue : PriorityQueue (Scheduled.key (N := N))}
    {script : List ScriptedEvent}
    (h : queue.toList.Perm (script.zipIdx.map (scriptedEvent N))) :
    queue.toList = (sortedEntries script).map (scriptedEvent N) := by
  refine List.Perm.eq_of_pairwise (fun a b ha hb hab hba ↦ ?_) queue.sorted
    (sorted_sortedEntries script) (h.trans ((List.mergeSort_perm _ _).map _).symm)
  have hmem : b ∈ script.zipIdx.map (scriptedEvent N) :=
    ((List.mergeSort_perm _ _).map _).mem_iff.mp hb
  exact scriptedEvent_inj (h.mem_iff.mp ha) hmem (le_antisymm hab hba)

section Scripted

variable {data : PlanData} {workload : Option Strategy} {seed : Seed} {script : List ScriptedEvent}
  {mode : Mode}

/-- A scripted plan is prepared with its script queued in order. -/
theorem prepared_script {prepared : SchedCore N}
    (hprepare : prepareCore N data seed = .ok prepared)
    (hfaults : data.faults = some ⟨.scripted script, mode⟩) :
    prepared.queue.toList = (sortedEntries script).map (scriptedEvent N) := by
  simp only [prepareCore, except_bind_eq_ok] at hprepare
  obtain ⟨horizon, -, ⟨model, core⟩, hlower, hprepared⟩ := hprepare
  obtain rfl := except_pure_eq_ok.mp hprepared
  rw [hfaults] at hlower
  obtain ⟨-, rfl⟩ := Prod.mk.inj (Except.ok.inj hlower)
  exact toList_of_script (schedule_script _ rfl rfl script).2

theorem le_foldl_latest (first : Duration) (script : List ScriptedEvent) :
    first ≤ script.foldl (fun latest event ↦ max latest event.fireAt) first ∧
      ∀ entry ∈ script,
        entry.fireAt ≤ script.foldl (fun latest event ↦ max latest event.fireAt) first := by
  induction script generalizing first with
  | nil => exact ⟨le_rfl, by simp⟩
  | cons entry rest ih =>
    obtain ⟨hfirst, hrest⟩ := ih (max first entry.fireAt)
    refine ⟨(le_max_left _ _).trans hfirst, List.forall_mem_cons.mpr ⟨?_, hrest⟩⟩
    exact (le_max_right _ _).trans hfirst

theorem le_latestFault (hfaults : data.faults = some ⟨.scripted script, mode⟩)
    {entry : ScriptedEvent} (h : entry ∈ script) :
    entry.fireAt ≤ latestFault (horizonFaults data) := by
  have hlatest : latestFault (horizonFaults data) =
      script.foldl (fun latest event ↦ max latest event.fireAt) (.fromSecs 5) := by
    rw [horizonFaults, hfaults]
    rfl
  rw [hlatest]
  exact (le_foldl_latest _ script).2 entry h

/-- A later instant by a positive number of seconds is later. -/
theorem lt_of_addDuration_secs {a b : Duration}
    (h : addDuration a (.fromSecs 10) = .ok b) : a < b := by
  rw [Duration.lt_iff, nanos_of_addDuration h]
  exact Nat.lt_add_of_pos_right (by decide)

/-- The horizon lies ten seconds after the last event of the script. -/
theorem Execution.lt_horizon (e : Execution N data workload codec seed)
    (hfaults : data.faults = some ⟨.scripted script, mode⟩)
    {entry : ScriptedEvent} (h : entry ∈ script) : entry.fireAt < e.final.core.horizon := by
  have hhorizon := e.queueOrdered.horizon_eq
  simp only [runHorizon, except_bind_eq_ok] at hhorizon
  obtain ⟨horizon, hadd, hhorizon⟩ := hhorizon
  rw [← except_pure_eq_ok.mp hhorizon]
  exact lt_of_lt_of_le ((le_latestFault hfaults h).trans_lt (lt_of_addDuration_secs hadd))
    (le_max_left _ _)

/-- The faults of a scripted plan are applied in the order of its script. -/
theorem Execution.applied_script (e : Execution N data workload codec seed)
    (hfaults : data.faults = some ⟨.scripted script, mode⟩) :
    applied e = (inOrder script).map fun event ↦ (event.fireAt, lowerAction event.action) := by
  have hqueue := prepared_script e.prepare_eq hfaults
  have hbelow : ∀ event ∈ e.prepared.queue.toList, event.fireAt < e.final.core.horizon := by
    intro event hevent
    rw [hqueue] at hevent
    obtain ⟨entry, hentry, rfl⟩ := List.mem_map.mp hevent
    refine e.lt_horizon hfaults (?_ : entry.1 ∈ script)
    have hin : entry.1 ∈ inOrder script := map_sortedEntries script ▸ List.mem_map_of_mem hentry
    exact List.mem_mergeSort.mp hin
  rw [applied_eq_map, e.faultEvents_taken hbelow, hqueue, List.filterMap_map,
    ← map_sortedEntries, List.map_map, ← List.filterMap_eq_map]
  rfl

/-- A run of a scripted plan applies each event of the script once, in the order of time and, at one
time, of the script. Its run events are those of the heals and restarts, in that order and at their
scripted times. -/
theorem runDeterministic_scripted (hfaults : data.faults = some ⟨.scripted script, mode⟩)
    {fuel : ℕ} {nodeDef : Option NodeDef} {run : TypedRun N}
    (h : runDeterministic fuel data nodeDef workload codec seed = .ok (.ok run)) :
    ∃ e : Execution N data workload codec seed, e.result = run ∧
      applied e = (inOrder script).map (fun event ↦ (event.fireAt, lowerAction event.action)) ∧
      run.events = (inOrder script).filterMap fun event ↦
        runEvent (event.fireAt, lowerAction event.action) := by
  obtain ⟨e, rfl⟩ := exists_execution h
  refine ⟨e, rfl, e.applied_script hfaults, ?_⟩
  rw [e.events_eq, e.applied_script hfaults, List.filterMap_map]
  rfl

end Scripted

/-- A scripted timeline out of order, with two heals and ties. -/
def tiedScript : List ScriptedEvent :=
  [⟨.fromMillis 4, .restart ⟨0⟩⟩, ⟨.fromMillis 2, .crash ⟨0⟩⟩, ⟨.fromMillis 4, .healAll⟩,
    ⟨.fromMillis 2, .healAll⟩]

theorem inOrder_tiedScript : inOrder tiedScript =
    [⟨.fromMillis 2, .crash ⟨0⟩⟩, ⟨.fromMillis 2, .healAll⟩, ⟨.fromMillis 4, .restart ⟨0⟩⟩,
      ⟨.fromMillis 4, .healAll⟩] := by
  have hnot : ¬Duration.fromMillis 4 ≤ .fromMillis 2 := by decide +kernel
  simp [inOrder, tiedScript, List.mergeSort, hnot]

/-- The run events of a timeline out of order come in the order of time, with ties in script
order. -/
theorem tiedScript_events :
    ∃ run, runDeterministic 8 (counterPlan 2 tiedScript [.new ⟨0⟩ .nil]) none none
        (some counterCodec) ⟨0⟩ = .ok (.ok run) ∧
      run.events = [.networkHealed (.fromMillis 2), .nodeRejoined (.fromMillis 4) ⟨0⟩,
        .networkHealed (.fromMillis 4)] := by
  obtain ⟨run, hrun⟩ := exists_run_of_isSome (N := counter)
    (x := runDeterministic 8 (counterPlan 2 tiedScript [.new ⟨0⟩ .nil]) none none
      (some counterCodec) ⟨0⟩) (by decide +kernel)
  obtain ⟨e, -, -, hevents⟩ := runDeterministic_scripted rfl hrun
  rw [inOrder_tiedScript] at hevents
  exact ⟨run, hrun, hevents⟩

end Propsim.Simulator
