import Propsim.Simulator.Worlds
import Propsim.Simulator.Messages

/-!
# A run at an instant

A loop passes through every instant below its horizon (`Loop.exists_instant`): there is a state in
which everything that was due by then has been taken. What that state has queued and what its nodes
hold can be read off a frame (`ShowsNodes`), and on a network that loses nothing, a broadcast queues
a copy for every peer within the delays of the network (`exists_copy_of_broadcast`). Bounds on the
time that a cluster takes to get somewhere are proved from these.
-/

set_option autoImplicit false
set_option relaxedAutoImplicit false

namespace Propsim.Simulator

open Foundation Interchange Propsim.Core

variable {N : Node} {codec : Option (ClientCodec N)} {ops : List FrozenOp}

/-! ### The state at an instant -/

/-- A loop passes through every instant below its horizon: the clock of one of its states is not
past the instant, and nothing that this state has queued is due by then. -/
theorem Loop.exists_instant {state final : RunState N} {steps : List (Scheduled N × RunState N)}
    (h : Loop codec ops state steps final) {t : Duration} (hnow : state.core.now ≤ t)
    (ht : t < state.core.horizon) :
    ∃ s ∈ state :: steps.map (·.2), s.core.now ≤ t ∧
      ∀ event ∈ s.core.queue.toList, t < event.fireAt := by
  induction h with
  | stop hstops =>
    refine ⟨_, List.mem_cons_self, hnow, fun event hevent ↦ ?_⟩
    exact ht.trans_le (hstops.horizon_le.1 event hevent)
  | @turn state next final event steps hturn _ ih =>
    obtain ⟨queue, hpop, -⟩ := hturn.pop_eq
    rcases le_or_gt event.fireAt t with hdue | hlater
    · obtain ⟨s, hs, hinstant⟩ := ih (hturn.now_eq ▸ hdue) (hturn.horizon_eq ▸ ht)
      exact ⟨s, List.mem_cons_of_mem _ hs, hinstant⟩
    · refine ⟨_, List.mem_cons_self, hnow, fun other hother ↦ ?_⟩
      rcases (PriorityQueue.mem_pop_iff hpop).mp hother with rfl | hother
      · exact hlater
      · exact hlater.trans_le
          (Scheduled.fireAt_le_of_key_le (PriorityQueue.key_le_of_pop hpop other hother))

/-! ### What a turn hands to a callback -/

/-- What taking an event does: it is skipped, or it is dispatched, a frame is taken, and the pump
only adds to the queue. -/
inductive Turn.Outcome (codec : Option (ClientCodec N)) (ops : List FrozenOp) (state : RunState N)
    (event : Scheduled N) (next : RunState N) : Prop
  | skipped {queue : PriorityQueue Scheduled.key}
      (hpop : state.core.queue.pop = some (event, queue)) {core : SchedCore N}
      (hresolve : SchedCore.resolve { state.core with queue := queue } event = (none, core))
      (hnext : next = { state with core := core })
  | dispatched {queue : PriorityQueue Scheduled.key}
      (hpop : state.core.queue.pop = some (event, queue))
      (hbelow : event.fireAt < state.core.horizon) {core core' : SchedCore N}
      {popped : PoppedEvent N}
      (hresolve : SchedCore.resolve { state.core with queue := queue } event = (some popped, core))
      (hdispatch : dispatch codec ops core state.nodes popped = .ok (core', next.nodes))
      (hframes : next.frames = state.frames ++ [(event.fireAt, next.nodes.filterMap id)])
      (hcore : next.core = { core' with queue := next.core.queue, seq := next.core.seq })
      (hqueue : ∀ other ∈ core'.queue.toList, other ∈ next.core.queue.toList)

theorem Turn.outcome {state next : RunState N} {event : Scheduled N}
    (h : Turn codec ops state event next) : Turn.Outcome codec ops state event next := by
  have hnow := h.now_eq
  cases h with
  | skip hpop hbelow hresolve => exact .skipped hpop hresolve rfl
  | fire hpop hbelow hresolve hhandle =>
    obtain ⟨core', nodes, pumped, hdispatch, hpump, rfl⟩ := exists_pump_of_handle hhandle
    obtain ⟨hnodes, hcore⟩ := pumpClientOps_frame hpump
    have hframes := frames_pumpClientOps hpump
    refine .dispatched hpop hbelow hresolve ?_ ?_ hcore fun other hother ↦ ?_
    · change dispatch codec ops _ _ _ = .ok (core', pumped.nodes)
      rw [hnodes]
      exact hdispatch
    · change pumped.frames ++ [(pumped.core.now, _)] = _
      rw [hframes, ← hnow]
      rfl
    · change other ∈ pumped.core.queue.toList
      exact pumpClientOps_core (P := fun core ↦ other ∈ core.queue.toList)
        (fun core fireAt process index _ hcore ↦ PriorityQueue.mem_push.mpr (.inr hcore)) hpump
        hother

/-- Core steps only add to the queue. -/
theorem CoreSteps.mem_queue {core core' : SchedCore N} (h : CoreSteps core core')
    {event : Scheduled N} (hevent : event ∈ core.queue.toList) : event ∈ core'.queue.toList := by
  refine h.invariant (P := fun c ↦ event ∈ c.queue.toList) (fun c c' hc hstep ↦ ?_) hevent
  cases hstep with
  | quiet => exact hc
  | enqueue => exact PriorityQueue.mem_push.mpr (.inr hc)
  | close token value _ => rwa [(sameQueue_closeOp c token _ value).queue_eq]

/-- No queued event is before the event that a turn takes. -/
theorem Turn.fireAt_le {state next : RunState N} {event other : Scheduled N}
    (h : Turn codec ops state event next) (hother : other ∈ state.core.queue.toList) :
    event.fireAt ≤ other.fireAt := by
  obtain ⟨queue, hpop, -⟩ := h.pop_eq
  rcases (PriorityQueue.mem_pop_iff hpop).mp hother with rfl | hother
  · exact le_rfl
  · exact Scheduled.fireAt_le_of_key_le (PriorityQueue.key_le_of_pop hpop other hother)

/-- The network is whole after a heal, and as long as nothing cuts it. -/
theorem Turn.partitions_eq_nil {state next : RunState N} {event : Scheduled N}
    (h : Turn codec ops state event next)
    (hcut : ∀ a b, event.kind ≠ .fault (.partition a b))
    (hwhole : event.kind = .fault .healAll ∨ state.core.partitions = []) :
    next.core.partitions = [] := by
  have hsame (hheal : event.kind ≠ .fault .healAll) : state.core.partitions = [] :=
    hwhole.resolve_left hheal
  cases h with
  | skip hpop hbelow hresolve =>
    cases resolves_of_resolve hresolve with
    | skipped _ hfault => exact hsame (hfault .healAll)
  | @fire queue core popped _ hpop hbelow hresolve hhandle =>
    rw [(sameCluster_handle hhandle).partitions_eq]
    cases resolves_of_resolve hresolve with
    | deliver hkind _ => exact hsame (by simp [hkind])
    | timer hkind _ _ => exact hsame (by simp [hkind])
    | clientOp hkind => exact hsame (by simp [hkind])
    | @fault action hkind =>
      cases action with
      | partition a b => exact absurd hkind (hcut a b)
      | healAll => rfl
      | crash n =>
        obtain ⟨_, _, hcrash⟩ :=
          applyFault_crash { state.core with queue := queue, now := event.fireAt } n
        refine (congrArg SchedCore.partitions hcrash).trans ?_
        exact hsame (by simp [hkind])
      | restart n => exact hsame (by simp [hkind])

/-! ### The nodes in a frame -/

/-- A frame shows the nodes as they are. It is not before `since` once a run event was recorded. -/
def ShowsNodes (since : Duration) (state : RunState N) : Prop :=
  ∃ frame ∈ state.frames, frame.2 = state.nodes.filterMap id ∧ frame.1 ≤ state.core.now ∧
    (state.core.events ≠ [] → since ≤ frame.1)

/-- A turn keeps the nodes on show. Assumes: no run event is recorded before `since`. -/
theorem Turn.showsNodes {state next : RunState N} {event : Scheduled N} {since : Duration}
    (h : Turn codec ops state event next) (hnow : state.core.now ≤ event.fireAt)
    (hsince : next.core.events ≠ [] → since ≤ event.fireAt) (hstate : ShowsNodes since state) :
    ShowsNodes since next := by
  have hnext := h.now_eq
  cases h.outcome with
  | skipped hpop hresolve heq =>
    obtain ⟨frame, hframe, hnodes, htime, hafter⟩ := hstate
    obtain rfl := heq
    cases resolves_of_resolve hresolve
    exact ⟨frame, hframe, hnodes, htime.trans hnow, hafter⟩
  | dispatched hpop hbelow hresolve hdispatch hframes =>
    refine ⟨(event.fireAt, next.nodes.filterMap id), ?_, rfl, hnext.ge, hsince⟩
    rw [hframes]
    exact List.mem_append_right _ (List.mem_singleton_self _)

/-! ### Broadcasts on a reliable network -/

theorem mem_peers_iff {core : SchedCore N} {me peer : NodeId} :
    peer ∈ core.peers me ↔ peer.id < core.nodeCount ∧ peer ≠ me := by
  simp only [SchedCore.peers, List.mem_filter, List.mem_map, List.mem_range, decide_eq_true_eq]
  refine and_congr_left fun _ ↦ ⟨?_, fun hlt ↦ ?_⟩
  · rintro ⟨n, hn, rfl⟩
    rw [UInt64.lt_iff_toNat_lt, UInt64.toNat_ofNat_of_lt' (hn.trans core.nodeCount.toNat_lt)]
    exact hn
  · exact ⟨peer.id.toNat, UInt64.lt_iff_toNat_lt.mp hlt, by rw [UInt64.ofNat_toNat]⟩

/-- Sending a message between connected nodes on a network that loses nothing queues a copy of it
within the delays of the network. -/
theorem exists_copy_of_send {model : NetworkModel} {log : List (Moment N)}
    {core core' : SchedCore N} (hcore : Networked model log core)
    (hloss : model.loss.value.le .zero = true)
    {sender recipient : NodeId} {msg : N.Msg} (hconnected : core.connected sender recipient = true)
    (h : core.scheduleDelivery sender recipient msg = .ok core') :
    ∃ event ∈ core'.queue.toList, event.kind = .deliver sender recipient msg ∧
      event.fireAt.nanos ≤ core.now.nanos + maxDelay model := by
  obtain rfl := hcore.model_eq
  have hcopies := copies_of_ok (seq_lt_of_queueInv hcore.queue) h
  generalize core.copies sender recipient msg = copies at hcopies
  cases hcopies with
  | none hdropped =>
    have hroll : core.lossRoll.1 = false := by rw [SchedCore.lossRoll, chance_never _ hloss]
    simp [hconnected, hroll] at hdropped
  | some _ _ hsum _ heq hqueue =>
    refine ⟨_, (hqueue _).mpr (.inl (heq ▸ List.mem_cons_self)), rfl, ?_⟩
    exact (arrival_bounds hsum (hcore.ceiling _)).2

/-- A broadcast on a network that loses nothing queues a copy for every peer that the sender is
connected to, within the delays of the network. -/
theorem exists_copy_of_broadcast {model : NetworkModel} {log : List (Moment N)}
    {core core' : SchedCore N} (hcore : Networked model log core)
    (hloss : model.loss.value.le .zero = true) {me peer : NodeId} {msg : N.Msg}
    (hpeer : peer ∈ core.peers me) (hconnected : core.connected me peer = true)
    (h : (core.peers me).foldlM (fun core peer ↦ core.scheduleDelivery me peer msg) core =
      .ok core') :
    ∃ event ∈ core'.queue.toList, event.kind = .deliver me peer msg ∧
      event.fireAt.nanos ≤ core.now.nanos + maxDelay model := by
  refine foldlM_visits (P := fun c ↦ (∃ log, Networked model log c) ∧ SameCluster core c)
    (Q := fun c ↦ ∃ event ∈ c.queue.toList, event.kind = .deliver me peer msg ∧
      event.fireAt.nanos ≤ core.now.nanos + maxDelay model) hpeer
    (fun other c c' ⟨⟨log, hc⟩, hsame⟩ hsend ↦ ⟨⟨_, (MomentStep.send log hsend).networked hc⟩,
      hsame.trans (scheduleDelivery_steps hsend).sameCluster⟩)
    (fun c c' ⟨⟨log, hc⟩, hsame⟩ hsend ↦ ?_)
    (fun other c c' _ ⟨event, hevent, hcopy⟩ hsend ↦
      ⟨event, (scheduleDelivery_steps hsend).mem_queue hevent, hcopy⟩)
    ⟨⟨log, hcore⟩, .refl core⟩ h
  rw [← hsame.now_eq]
  refine exists_copy_of_send hc hloss ?_ hsend
  rwa [SchedCore.connected, hsame.crashed_eq, hsame.partitions_eq]

section Executions

variable {data : PlanData} {workload : Option Strategy} {seed : Seed}

/-- The network is as the moments so far left it, in every state of an execution. -/
theorem Execution.networked (e : Execution N data workload codec seed) :
    ∀ state ∈ e.states, ∃ log, Networked e.prepared.model log state.core := by
  have hstarted : ∃ log, MomentSteps ([], e.prepared) (log, e.started.core) := by
    obtain ⟨core, nodes, hnodes, hpump⟩ := startRun_eq_ok.mp e.start_eq
    exact ⟨_, (startMoments_steps [] hnodes).trans (pumpClientOps_moments _ hpump)⟩
  intro state hstate
  obtain ⟨log, hsteps⟩ := e.loop.invariant
    (P := fun s ↦ ∃ log, MomentSteps ([], e.prepared) (log, s.core))
    (fun s event next ⟨log, hs⟩ hturn ↦ ⟨_, hs.trans (hturn.moments_steps log)⟩) hstarted state
    hstate
  exact ⟨log, networked_of_steps hsteps (networked_prepared e.prepare_eq)⟩

end Executions

end Propsim.Simulator
