import Propsim.Simulator.Halting
import Propsim.Simulator.Messages

/-!
# The ids that index the node table

The route and the process of an operation are reduced modulo the size of the table, a timer is armed
by a node that has a slot, a swarm schedule draws its victims within the cluster, and broadcasts go
to peers of the cluster. A scripted restart and a message sent by name reach the table unchecked. So
a run indexes the table out of bounds exactly when it gets to such an event in its queue (`Astray`).
No event goes astray when the restarts of the script and the messages that the run sends stay in
the cluster, and they do in every run that returns (`runDeterministic_inBounds`). A run in which a
node sends to a node that does not exist indexes the table out of bounds (`stray_outOfBounds`).
-/

set_option autoImplicit false
set_option relaxedAutoImplicit false

namespace Propsim.Simulator

open Foundation Interchange Propsim.Core

variable {N : Node} {codec : Option (ClientCodec N)} {ops : List FrozenOp}

/-! ### What the driver is handed -/

/-- An event that leads out of the node table: it restarts a node that does not exist, or it
delivers a message to one that is not crashed. -/
def Astray (core : SchedCore N) (event : Scheduled N) : Prop :=
  ∃ node : NodeId, core.nodeCount ≤ node.id ∧
    (event.kind = .fault (.restart node) ∨
      node ∉ core.crashed ∧ ∃ sender msg, event.kind = .deliver sender node msg)

/-- The node of a timer and the operation of a client are in their tables. -/
def EventKind.Tabled (nodeCount opCount : ℕ) : EventKind N → Prop
  | .timer id _ _ => id.id.toNat < nodeCount
  | .clientOp _ index => index < opCount
  | .deliver _ _ _ => True
  | .fault _ => True

/-- The timers and the operations in the queue are in their tables. -/
structure Tabled (count : UInt64) (opCount : ℕ) (core : SchedCore N) : Prop where
  nodeCount_eq : core.nodeCount = count
  queued : ∀ event ∈ core.queue.toList, event.kind.Tabled count.toNat opCount

section Queue

variable {count : UInt64} {opCount : ℕ} {core core' : SchedCore N}

theorem Tabled.congr (h : Tabled count opCount core) (hsame : SameQueue core core') :
    Tabled count opCount core' :=
  ⟨hsame.nodeCount_eq.trans h.nodeCount_eq, hsame.queue_eq ▸ h.queued⟩

theorem Tabled.enqueue (h : Tabled count opCount core) (fireAt : Duration) {kind : EventKind N}
    (hkind : kind.Tabled count.toNat opCount) :
    Tabled count opCount (core.enqueue fireAt kind) := by
  refine ⟨h.nodeCount_eq, fun event hevent ↦ ?_⟩
  rcases PriorityQueue.mem_push.mp hevent with rfl | hevent
  · exact hkind
  · exact h.queued event hevent

/-- Taking the head of the queue. -/
theorem Tabled.take (h : Tabled count opCount core) {event : Scheduled N}
    {queue : PriorityQueue Scheduled.key} (hpop : core.queue.pop = some (event, queue)) :
    event.kind.Tabled count.toNat opCount ∧
      Tabled count opCount { core with queue := queue, now := event.fireAt } := by
  have hqueued := h.queued
  rw [PriorityQueue.pop_eq_some_iff.mp hpop, List.forall_mem_cons] at hqueued
  exact ⟨hqueued.1, h.nodeCount_eq, hqueued.2⟩

/-- What the driver is handed is in the tables exactly when its event does not go astray. -/
theorem inTable_iff_of_resolve {event : Scheduled N} {popped : PoppedEvent N}
    (h : core.resolve event = (some popped, core'))
    (hkind : event.kind.Tabled core.nodeCount.toNat opCount) (hpos : 0 < core.nodeCount.toNat) :
    popped.InTable core.nodeCount.toNat opCount ↔ ¬ Astray core event := by
  have hout (node : NodeId) :
      core.nodeCount ≤ node.id ↔ ¬ node.id.toNat < core.nodeCount.toNat := by
    rw [UInt64.le_iff_toNat_le, Nat.not_lt]
  generalize hresult : some popped = result at h
  cases resolves_of_resolve h with
  | skipped => cases hresult
  | @deliver sender recipient msg heq hup =>
    obtain rfl := Option.some.inj hresult
    constructor
    · rintro hin ⟨node, hnode, hrestart | ⟨-, sender', msg', hsent⟩⟩
      · rw [heq] at hrestart
        cases hrestart
      · obtain ⟨-, rfl, -⟩ := EventKind.deliver.inj (heq.symm.trans hsent)
        exact (hout recipient).mp hnode hin
    · intro hstays
      by_contra hin
      exact hstays ⟨recipient, (hout recipient).mpr hin, .inr ⟨hup, sender, msg, heq⟩⟩
  | timer heq =>
    obtain rfl := Option.some.inj hresult
    rw [heq] at hkind
    exact iff_of_true hkind fun ⟨_, _, hother⟩ ↦ by simp [heq] at hother
  | clientOp heq =>
    obtain rfl := Option.some.inj hresult
    rw [heq] at hkind
    exact iff_of_true ⟨hkind, hpos⟩ fun ⟨_, _, hother⟩ ↦ by simp [heq] at hother
  | @fault action heq =>
    obtain rfl := Option.some.inj hresult
    cases action with
    | partition a b => exact iff_of_true trivial fun ⟨_, _, hother⟩ ↦ by simp [heq] at hother
    | healAll => exact iff_of_true trivial fun ⟨_, _, hother⟩ ↦ by simp [heq] at hother
    | crash n => exact iff_of_true trivial fun ⟨_, _, hother⟩ ↦ by simp [heq] at hother
    | restart n =>
      constructor
      · rintro hin ⟨node, hnode, hrestart | ⟨-, sender', msg', hsent⟩⟩
        · obtain rfl := FaultAction.restart.inj (EventKind.fault.inj (heq.symm.trans hrestart))
          exact (hout n).mp hnode hin
        · rw [heq] at hsent
          cases hsent
      · intro hstays
        by_contra hin
        exact hstays ⟨n, (hout n).mpr hin, .inl heq⟩

/-- What is skipped does not go astray: it is neither a fault nor a delivery to a node that is
up. -/
theorem not_astray_of_skip {event : Scheduled N} {queue : PriorityQueue Scheduled.key}
    (h : SchedCore.resolve { core with queue := queue } event = (none, core')) :
    ¬ Astray core event := by
  rintro ⟨node, -, hkind | ⟨hup, sender, msg, hkind⟩⟩
  · simp [SchedCore.resolve, hkind] at h
  · simp [SchedCore.resolve, hkind, hup] at h

/-- What is not in the tables is not dispatched. -/
theorem dispatch_of_not_inTable {nodes : List (Option N.State)} {popped : PoppedEvent N}
    (h : ¬ popped.InTable nodes.length ops.length) (hpos : 0 < nodes.length) :
    dispatch codec ops core nodes popped = .error .outOfBounds := by
  have hcallback {id : NodeId} (hid : ¬ id.id.toNat < nodes.length)
      (callback : N.State → Effects N.Msg N.Timer N.Response N.State) :
      runCallback codec core nodes id callback = .error .outOfBounds := by
    rw [runCallback, List.getElem?_eq_none (Nat.not_lt.mp hid)]
  cases popped with
  | deliver sender recipient msg => exact hcallback h _
  | timer id timer => exact hcallback h _
  | clientOp process index =>
    have hindex : ¬ index < ops.length := fun hlt ↦ h ⟨hlt, hpos⟩
    rw [dispatch, List.getElem?_eq_none (Nat.not_lt.mp hindex)]
  | fault rejoined =>
    cases rejoined with
    | none => exact absurd trivial h
    | some id => exact hcallback h _

end Queue

/-! ### What the callbacks add to the queue -/

section Effects

variable {count : UInt64} {opCount : ℕ} {core : SchedCore N} {Q : Halt → Prop}

/-- Sending a message. -/
theorem Tabled.scheduleDelivery (h : Tabled count opCount core)
    (hQ : ∀ halt, halt ≠ .outOfBounds → Q halt) (sender recipient : NodeId) (msg : N.Msg) :
    Ensures (Tabled count opCount) Q (core.scheduleDelivery sender recipient msg) := by
  have hspec := delivery core sender recipient msg
  generalize core.scheduleDelivery sender recipient msg = result at hspec ⊢
  cases hspec with
  | cut => exact h
  | lost => exact h.congr ⟨rfl, rfl, rfl, rfl, rfl⟩
  | overflow _ _ hsum =>
    obtain rfl := addDuration_error hsum
    exact hQ _ Halt.noConfusion
  | @sent sampled =>
    have hdrawn : Tabled count opCount
        (core.drawn sender recipient (core.arrival sender recipient sampled)) :=
      h.congr ⟨rfl, rfl, rfl, rfl, rfl⟩
    have hkind : EventKind.Tabled count.toNat opCount (.deliver sender recipient msg) := trivial
    unfold Ensures SchedCore.sent
    split_ifs
    · exact (hdrawn.enqueue _ hkind).enqueue _ hkind
    · exact hdrawn.enqueue _ hkind

/-- Arming a timer of a node that has a slot. -/
theorem Tabled.armTimer (h : Tabled count opCount core)
    (hQ : ∀ halt, halt ≠ .outOfBounds → Q halt) {node : NodeId}
    (hnode : node.id.toNat < count.toNat) (timer : N.Timer) (after : Duration) :
    Ensures (Tabled count opCount) Q (core.armTimer node timer after) := by
  refine ensures_of_eq (fun core' hcore' ↦ ?_) fun halt hhalt ↦ ?_
  · obtain ⟨fireAt, -, rfl⟩ := armTimer_eq_ok hcore'
    have hcancel : Tabled count opCount (core.cancelTimer node timer) :=
      h.congr ⟨rfl, rfl, rfl, rfl, rfl⟩
    exact hcancel.enqueue fireAt hnode
  · obtain rfl := armTimer_error hhalt
    exact hQ _ Halt.noConfusion

/-- The effects of a node that has a slot. -/
theorem effectRule_tabled {me : NodeId} (hme : me.id.toNat < count.toNat)
    (hQ : ∀ halt, halt ≠ .outOfBounds → Q halt) :
    EffectRule (N := N) me (fun _ ↦ True) (Tabled count opCount) Q where
  quiet _ _ _ _ h := h.congr ⟨rfl, rfl, rfl, rfl, rfl⟩
  close core token kind value h := h.congr (sameQueue_closeOp core token kind value)
  deliver recipient msg _ _ h := h.scheduleDelivery hQ me recipient msg
  arm timer after _ _ h := h.armTimer hQ hme timer after

end Effects

/-! ### The runs -/

/-- The tables of a run and all that it has still to use. -/
structure TabledRun (count : UInt64) (opCount : ℕ) (state : RunState N) : Prop where
  core : Tabled count opCount state.core
  nodes : state.nodes.length = count.toNat
  streams : ∀ p, ∀ index ∈ state.perProcess p, index < opCount

section Runs

variable {count : UInt64} {opCount : ℕ} {Q : Halt → Prop}

/-- Pumping schedules operations of the stream only. -/
theorem TabledRun.pumpProcess {state : RunState N} (h : TabledRun count opCount state)
    (hQ : ∀ halt, halt ≠ .outOfBounds → Q halt) (p : ℕ) :
    Ensures (TabledRun count opCount) Q (pumpProcess state p) := by
  refine ensures_of_eq (fun next hnext ↦ ?_) fun halt hhalt ↦ ?_
  · cases pumps_of_pumpProcess hnext with
    | busy => exact h
    | drained => exact h
    | @issue index rest fireAt _ hstream =>
      have hindices := h.streams p
      rw [hstream, List.forall_mem_cons] at hindices
      refine ⟨h.core.enqueue fireAt hindices.1, h.nodes, fun q ↦ ?_⟩
      change ∀ i ∈ Function.update state.perProcess p rest q, i < opCount
      by_cases hq : q = p
      · subst hq
        rw [Function.update_self]
        exact hindices.2
      · rw [Function.update_of_ne hq]
        exact h.streams q
  · obtain rfl := pumpProcess_error hhalt
    exact hQ _ Halt.noConfusion

/-- What is handled keeps the tables. -/
theorem TabledRun.handle {state : RunState N} {event : Scheduled N} {popped : PoppedEvent N}
    {core : SchedCore N} (h : TabledRun count ops.length state)
    (hfires : Fires state event popped core) (hQ : ∀ halt, halt ≠ .outOfBounds → Q halt)
    (hbounds : popped.InTable state.nodes.length ops.length ∨ Q .outOfBounds) :
    Ensures (TabledRun count ops.length) Q
      (Simulator.handle codec ops { state with core := core } popped) := by
  cases hfires with
  | intro hpop hbelow hresolve =>
    have htaken := (h.core.take hpop).2.congr (sameQueue_resolve hresolve)
    refine handle_ensures ?_ (fun next p hnext ↦ hnext.pumpProcess hQ p) fun next hnext ↦
      ⟨hnext.core, hnext.nodes, hnext.streams⟩
    have hdispatch : Ensures
        (fun r ↦ Tabled count ops.length r.1 ∧ r.2.length = state.nodes.length) Q
        (dispatch codec ops core state.nodes popped) :=
      dispatch_ensures (fun me hme ↦ effectRule_tabled (h.nodes ▸ hme) hQ)
        (fun core process f value hcore ↦ hcore.congr (sameQueue_openOp core process f value))
        (fun core token kind value hcore ↦ hcore.congr (sameQueue_closeOp core token kind value))
        hbounds (fun _ _ ↦ trivial) htaken
    exact hdispatch.mono fun r hr ↦ ⟨hr.1, hr.2.trans h.nodes, h.streams⟩

/-- What the driver is handed is in the tables exactly when its event does not go astray. -/
theorem TabledRun.inTable_iff {state : RunState N} {event : Scheduled N} {popped : PoppedEvent N}
    {core : SchedCore N} (h : TabledRun count ops.length state) (hpos : 0 < count.toNat)
    (hfires : Fires state event popped core) :
    popped.InTable state.nodes.length ops.length ↔ ¬ Astray state.core event := by
  cases hfires with
  | intro hpop hbelow hresolve =>
    have hkind := (h.core.take hpop).1
    rw [← h.core.nodeCount_eq] at hkind hpos
    have hiff := inTable_iff_of_resolve hresolve hkind hpos
    rw [h.nodes, ← h.core.nodeCount_eq]
    exact hiff

/-- An event is handled without leaving the tables exactly when it does not go astray. -/
theorem TabledRun.handle_eq_error_iff {state : RunState N} {event : Scheduled N}
    {popped : PoppedEvent N} {core : SchedCore N} (h : TabledRun count ops.length state)
    (hpos : 0 < count.toNat) (hfires : Fires state event popped core) :
    Simulator.handle codec ops { state with core := core } popped = .error .outOfBounds ↔
      Astray state.core event := by
  have hin := h.inTable_iff hpos hfires
  constructor
  · intro herror
    by_contra hstays
    have hhandle : Ensures (TabledRun count ops.length) (· ≠ .outOfBounds)
        (Simulator.handle codec ops { state with core := core } popped) :=
      h.handle hfires (fun _ ↦ id) (.inl (hin.mpr hstays))
    exact hhandle.of_error herror rfl
  · intro hastray
    rw [Simulator.handle, dispatch_of_not_inTable (fun hin' ↦ hin.mp hin' hastray) (h.nodes ▸ hpos)]
    rfl

end Runs

section Starts

variable {data : PlanData} {workload : Option Strategy} {seed : Seed} {prepared : SchedCore N}
  {started state : RunState N}

theorem tabled_prepared (hprepare : prepareCore N data seed = .ok prepared) (opCount : ℕ) :
    Tabled (nodeCount data) opCount prepared :=
  prepared_core (fun _ _ _ h ↦ h.enqueue _ trivial)
    (fun _ _ h ↦ h.congr ⟨rfl, rfl, rfl, rfl, rfl⟩) hprepare
    fun _ _ ↦ ⟨rfl, by simp [SchedCore.new]⟩

/-- The start of a run calls the nodes of its table. -/
theorem startRun_tabled (hprepare : prepareCore N data seed = .ok prepared) :
    Ensures (TabledRun (nodeCount data) ops.length) (· ≠ .outOfBounds)
      (startRun codec ops prepared) := by
  have hprepared := tabled_prepared hprepare ops.length
  have hcount := hprepared.nodeCount_eq
  refine startRun_ensures (fun id hid ↦ effectRule_tabled ?_ fun _ h ↦ h) (fun _ _ ↦ trivial)
    hprepared (fun core nodes hcore hnodes ↦
      ⟨hcore, hnodes.trans (congrArg UInt64.toNat hcount), fun p index ↦ lt_of_mem_groupOps⟩)
    fun state p hstate ↦ hstate.pumpProcess (fun _ ↦ id) p
  rw [← hcount]
  change (UInt64.ofNat id).toNat < prepared.nodeCount.toNat
  rwa [UInt64.toNat_ofNat_of_lt' (hid.trans prepared.nodeCount.toNat_lt)]

/-- The tables are kept in every state that a run reaches. -/
theorem Reaches.tabled (h : Reaches codec ops started state)
    (hprepare : prepareCore N data seed = .ok prepared)
    (hstart : startRun codec ops prepared = .ok started) :
    TabledRun (nodeCount data) ops.length state := by
  have hstarted := @startRun_tabled N codec ops data seed prepared hprepare
  rw [hstart] at hstarted
  have hrule : LoopRule codec ops started (TabledRun (nodeCount data) ops.length) fun _ ↦ True :=
    ⟨hstarted, fun _ _ _ hstate hpop _ ↦ ⟨(hstate.core.take hpop).2, hstate.nodes, hstate.streams⟩,
      fun _ _ _ _ _ hstate hfires ↦ hstate.handle hfires (fun _ _ ↦ trivial) (.inr trivial)⟩
  exact hrule.reaches h

/-- A run leaves its tables exactly when it gets to an event that goes astray. -/
theorem exists_outOfBounds_iff :
    (∃ fuel nodeDef, runDeterministic fuel data nodeDef workload codec seed =
      .error .outOfBounds) ↔
    ∃ prepared started state event queue, prepareCore N data seed = .ok prepared ∧
      startRun codec (resolveOps data workload seed) prepared = .ok started ∧
      Reaches codec (resolveOps data workload seed) started state ∧
      state.core.queue.pop = some (event, queue) ∧ event.fireAt < state.core.horizon ∧
      Astray state.core event := by
  rw [runDeterministic_eq_error_iff Halt.noConfusion]
  constructor
  · rintro (hhorizon | ⟨prepared, hprepare, hstart | ⟨started, hstart, state, event, popped, core,
      hreach, hfires, hhandle⟩⟩)
    · cases prepareCore_error hhorizon
    · exact absurd rfl ((startRun_tabled hprepare).of_error hstart)
    · have hastray := ((hreach.tabled hprepare hstart).handle_eq_error_iff (nodeCount_pos data)
        hfires).mp hhandle
      obtain ⟨hpop, hbelow, -⟩ := hfires
      exact ⟨prepared, started, state, event, _, hprepare, hstart, hreach, hpop, hbelow, hastray⟩
  · rintro ⟨prepared, started, state, event, queue, hprepare, hstart, hreach, hpop, hbelow,
      hastray⟩
    refine .inr ⟨prepared, hprepare, .inr ⟨started, hstart, ?_⟩⟩
    cases hresolve : SchedCore.resolve { state.core with queue := queue } event with
    | mk popped core =>
      cases popped with
      | none => exact absurd hastray (not_astray_of_skip hresolve)
      | some popped =>
        have hfires : Fires state event popped core := .intro hpop hbelow hresolve
        exact ⟨state, event, popped, core, hreach, hfires,
          ((hreach.tabled hprepare hstart).handle_eq_error_iff (nodeCount_pos data) hfires).mpr
            hastray⟩

end Starts

/-! ### The faults of a run so far -/

/-- The faults of a run so far come from the queue of its preparation, where they stay until they
are taken, and a node is down only after a crash of it, and unless it was restarted since. -/
structure Faulted (planned : List (Scheduled N)) (log : List (Moment N)) (core : SchedCore N) :
    Prop where
  stems : ∀ event, event ∈ takenIn log ∨ event ∈ core.queue.toList →
    ∀ action, event.kind = .fault action → event ∈ planned
  kept : ∀ event ∈ planned, event ∈ core.queue.toList ∨ event ∈ takenIn log
  crashed : ∀ n ∈ core.crashed, ∃ crash ∈ takenIn log, crash.kind = .fault (.crash n)
  down : ∀ n, (∀ event ∈ planned, event.kind ≠ .fault (.restart n)) →
    ∀ crash ∈ takenIn log, crash.kind = .fault (.crash n) → n ∈ core.crashed

/-- A step takes the head of the queue, or it takes nothing, queues no fault and leaves the crashed
nodes alone. -/
theorem MomentStep.taken_cases {x y : List (Moment N) × SchedCore N} (h : MomentStep x y) :
    (takenIn y.1 = takenIn x.1 ∧ y.2.crashed = x.2.crashed ∧
        faultEvents y.2.queue.toList = faultEvents x.2.queue.toList) ∨
      ∃ event queue popped, x.2.queue.pop = some (event, queue) ∧
        takenIn y.1 = takenIn x.1 ++ [event] ∧ y.2.queue = queue ∧
        SchedCore.resolve { x.2 with queue := queue } event = (popped, y.2) := by
  cases h with
  | quiet => exact .inl ⟨rfl, rfl, rfl⟩
  | issue log core process index => exact .inl ⟨rfl, rfl, faultEvents_enqueue core _ (by simp)⟩
  | send log hsend =>
    have hsteps := scheduleDelivery_steps hsend
    exact .inl ⟨takenIn_append_other log rfl, hsteps.sameCluster.crashed_eq,
      hsteps.faultEvents_eq⟩
  | setTimer log hset =>
    have hsteps := armTimer_steps hset
    exact .inl ⟨takenIn_append_other log rfl, hsteps.sameCluster.crashed_eq,
      hsteps.faultEvents_eq⟩
  | cancelTimer log core node timer => exact .inl ⟨takenIn_append_other log rfl, rfl, rfl⟩
  | @take log core core' event queue popped hpop hbelow hresolve =>
    exact .inr ⟨event, queue, popped, hpop, takenIn_append_take log core event,
      (sameQueue_resolve hresolve).queue_eq, hresolve⟩

theorem MomentStep.faulted {planned : List (Scheduled N)} {x y : List (Moment N) × SchedCore N}
    (h : MomentStep x y) (hx : Faulted planned x.1 x.2) : Faulted planned y.1 y.2 := by
  have hkept := fun event hevent ↦ h.kept event (hx.kept event hevent)
  rcases h.taken_cases with ⟨htaken, hcrashed, hfaults⟩ |
    ⟨event, queue, popped, hpop, htaken, hqueue, hresolve⟩
  · refine ⟨fun event hevent action hkind ↦ hx.stems event ?_ action hkind, hkept, ?_, ?_⟩
    · rw [htaken] at hevent
      refine hevent.imp_right fun hqueued ↦ ?_
      have hfault := mem_faultEvents.mpr ⟨hqueued, action, hkind⟩
      rw [hfaults] at hfault
      exact (mem_faultEvents.mp hfault).1
    · rw [htaken, hcrashed]
      exact hx.crashed
    · rw [htaken, hcrashed]
      exact hx.down
  · have hhead := PriorityQueue.mem_of_pop hpop
    have hiff := mem_crashed_resolve hresolve
    refine ⟨fun other hother action hkind ↦ hx.stems other ?_ action hkind, hkept,
      fun n hn ↦ ?_, fun n hstays crash hcrash hkind ↦ ?_⟩
    · rw [htaken, hqueue, List.mem_append, List.mem_singleton] at hother
      rcases hother with (hold | rfl) | hrest
      · exact .inl hold
      · exact .inr hhead
      · exact .inr (PriorityQueue.mem_of_mem_pop hpop hrest)
    · rw [htaken]
      rcases (hiff n).mp hn with hkind | ⟨hdown, -⟩
      · exact ⟨event, by simp, hkind⟩
      · obtain ⟨crash, hcrash, hkind⟩ := hx.crashed n hdown
        exact ⟨crash, List.mem_append_left _ hcrash, hkind⟩
    · rw [htaken, List.mem_append, List.mem_singleton] at hcrash
      refine (hiff n).mpr ?_
      rcases hcrash with hold | rfl
      · refine .inr ⟨hx.down n hstays crash hold hkind, fun hrestart ↦ ?_⟩
        exact hstays event (hx.stems event (.inr hhead) _ hrestart) hrestart
      · exact .inl hkind

section Courses

variable {data : PlanData} {workload : Option Strategy} {seed : Seed} {prepared : SchedCore N}

theorem Course.faulted (c : Course N data seed) :
    Faulted c.prepared.queue.toList c.moments c.core := by
  refine c.steps.invariant (fun _ _ hstep ↦ hstep.faulted) ⟨fun event hevent _ _ ↦ ?_,
    fun _ ↦ .inl, fun n hn ↦ ?_, by simp [takenIn]⟩
  · simpa [takenIn] using hevent
  · have hnone : c.prepared.crashed = [] :=
      prepared_core (P := fun core ↦ core.crashed = []) (fun _ _ _ h ↦ h) (fun _ _ h ↦ h)
        c.prepare_eq fun _ _ ↦ rfl
    simp [hnone] at hn

/-! ### Runs that stay in the cluster -/

/-- A plan whose scripted restarts name nodes of the cluster. -/
def RestartsInCluster (data : PlanData) : Prop :=
  ∀ script, data.faults.bind Faults.script = some script → ∀ fireAt node,
    ⟨fireAt, .restart node⟩ ∈ script → node.id < nodeCount data

/-- The script crashes a node by some time. -/
def CrashedBy (data : PlanData) (node : NodeId) (time : Duration) : Prop :=
  ∃ script, data.faults.bind Faults.script = some script ∧
    ∃ fireAt ≤ time, ⟨fireAt, .crash node⟩ ∈ script

/-- A message that is sent at a moment to a node that does not exist, and that the network does not
drop, is due at the horizon or later, or when the script has crashed its recipient. -/
def Moment.StaysInCluster (data : PlanData) (m : Moment N) : Prop :=
  ∀ sender recipient msg sampled, m.act = .send sender recipient msg →
    nodeCount data ≤ recipient.id → m.core.connected sender recipient = true →
    m.core.lossRoll.1 = false →
    addDuration m.core.now (.fromMillis m.core.delayDraw.1) = .ok sampled →
      m.core.horizon ≤ m.core.arrival sender recipient sampled ∨
        CrashedBy data recipient (m.core.arrival sender recipient sampled)

/-- The restarts of the script and the messages that a run sends stay in the cluster. -/
structure StaysInCluster (N : Node) (data : PlanData) (workload : Option Strategy)
    (codec : Option (ClientCodec N)) (seed : Seed) : Prop where
  restarts : RestartsInCluster data
  sends : ∀ m, Happens N data workload codec seed m → m.StaysInCluster data

theorem script_eq_some {script : List ScriptedEvent}
    (h : data.faults.bind Faults.script = some script) :
    ∃ mode, data.faults = some ⟨.scripted script, mode⟩ := by
  obtain ⟨⟨spec, mode⟩, hfaults, hscript⟩ := Option.bind_eq_some_iff.mp h
  cases spec with
  | scripted events =>
    obtain rfl := Option.some.inj hscript
    exact ⟨mode, hfaults⟩
  | swarm kinds => cases hscript

/-- An event of the script is queued by the preparation of the run. -/
theorem exists_prepared_of_script (hprepare : prepareCore N data seed = .ok prepared)
    {script : List ScriptedEvent} (hscript : data.faults.bind Faults.script = some script)
    {entry : ScriptedEvent} (hentry : entry ∈ script) :
    ∃ event ∈ prepared.queue.toList, event.fireAt = entry.fireAt ∧
      event.kind = .fault (lowerAction entry.action) := by
  obtain ⟨mode, hfaults⟩ := script_eq_some hscript
  have hin : entry ∈ (sortedEntries script).map (·.1) := by
    rw [map_sortedEntries]
    exact List.mem_mergeSort.mpr hentry
  obtain ⟨pair, hpair, rfl⟩ := List.mem_map.mp hin
  refine ⟨scriptedEvent N pair, ?_, rfl, rfl⟩
  rw [prepared_script hprepare hfaults]
  exact List.mem_map_of_mem hpair

/-- A queued fault that concerns a node that does not exist is an event of the script. -/
theorem exists_script_of_prepared (hprepare : prepareCore N data seed = .ok prepared)
    {event : Scheduled N} (hevent : event ∈ prepared.queue.toList) {action : FaultAction}
    (hkind : event.kind = .fault action)
    (hout : ¬ FaultAction.Concerns (·.id < nodeCount data) action) :
    ∃ script, data.faults.bind Faults.script = some script ∧
      ∃ entry ∈ script, entry.fireAt = event.fireAt ∧ lowerAction entry.action = action := by
  cases hscript : data.faults.bind Faults.script with
  | some script =>
    obtain ⟨mode, hfaults⟩ := script_eq_some hscript
    rw [prepared_script hprepare hfaults] at hevent
    obtain ⟨entry, hentry, rfl⟩ := List.mem_map.mp hevent
    have hin : entry.1 ∈ inOrder script := map_sortedEntries script ▸ List.mem_map_of_mem hentry
    exact ⟨script, rfl, entry.1, List.mem_mergeSort.mp hin, rfl, EventKind.fault.inj hkind⟩
  | none =>
    have hprepared : Ensures (fun core : SchedCore N ↦ ∀ event ∈ core.queue.toList, ∀ action,
        event.kind = .fault action → FaultAction.Concerns (·.id < nodeCount data) action)
        (fun _ ↦ True) (prepareCore N data seed) := by
      refine prepareCore_ensures (fun _ ↦ id)
        (ensures_of_eq (fun _ _ ↦ trivial) fun _ _ ↦ trivial)
        (fun core fireAt action haction h event hevent ↦ ?_) (fun _ _ h ↦ h) (by simp [hscript])
        fun horizon event hevent ↦ by simp [SchedCore.new] at hevent
      rcases PriorityQueue.mem_push.mp hevent with rfl | hevent
      · intro other heq
        exact EventKind.fault.inj heq ▸ haction
      · exact h event hevent
    rw [hprepare] at hprepared
    exact absurd (hprepared event hevent action hkind) hout

theorem lowerAction_eq_restart {action : ScriptedAction} {node : NodeId}
    (h : lowerAction action = .restart node) : action = .restart node := by
  cases action with
  | restart n => exact congrArg _ (FaultAction.restart.inj h)
  | _ => cases h

theorem lowerAction_eq_crash {action : ScriptedAction} {node : NodeId}
    (h : lowerAction action = .crash node) : action = .crash node := by
  cases action with
  | crash n => exact congrArg _ (FaultAction.crash.inj h)
  | _ => cases h

/-- A plan whose restarts stay in the cluster queues no other restart. -/
theorem RestartsInCluster.ne_restart (h : RestartsInCluster data)
    (hprepare : prepareCore N data seed = .ok prepared) {node : NodeId}
    (hout : nodeCount data ≤ node.id) :
    ∀ event ∈ prepared.queue.toList, event.kind ≠ .fault (.restart node) := by
  intro event hevent hkind
  obtain ⟨script, hscript, ⟨fireAt, action⟩, hentry, -, haction⟩ :=
    exists_script_of_prepared hprepare hevent hkind (UInt64.not_lt.mpr hout)
  obtain rfl := lowerAction_eq_restart haction
  exact absurd (h script hscript fireAt node hentry) (UInt64.not_lt.mpr hout)

end Courses

section Sends

variable {data : PlanData} {workload : Option Strategy} {seed : Seed} {prepared : SchedCore N}
  {started state : RunState N} {log : List (Moment N)}

/-- In a run that stays in the cluster nothing goes astray: a delivery stems from a message that the
run sends, and a crash of its recipient that the script has set for its arrival or before was queued
earlier, so it is taken earlier. -/
theorem StaysInCluster.not_astray (h : StaysInCluster N data workload codec seed)
    (hprepare : prepareCore N data seed = .ok prepared)
    (hstart : startRun codec (resolveOps data workload seed) prepared = .ok started)
    (harrives : Arrives codec (resolveOps data workload seed) prepared started log state)
    {event : Scheduled N} {queue : PriorityQueue Scheduled.key}
    (hpop : state.core.queue.pop = some (event, queue))
    (hbelow : event.fireAt < state.core.horizon) : ¬ Astray state.core event := by
  have hsetting := harrives.reaches.inSetting hprepare hstart
  have hfaulted : Faulted prepared.queue.toList log state.core :=
    (harrives.course hprepare hstart).faulted
  have hhead := PriorityQueue.mem_of_pop hpop
  rintro ⟨node, hout, hrestart | ⟨hup, sender, msg, hkind⟩⟩
  · rw [hsetting.nodeCount_eq] at hout
    exact h.restarts.ne_restart hprepare hout event
      (hfaulted.stems event (.inr hhead) _ hrestart) hrestart
  rw [hsetting.nodeCount_eq] at hout
  obtain ⟨⟨core, act⟩, hm, hact, hcopy⟩ :=
    (harrives.course hprepare hstart).networked.stems event hhead sender node msg hkind
  obtain rfl : act = .send sender node msg := hact
  obtain ⟨i, hi⟩ := List.mem_iff_getElem?.mp hm
  obtain ⟨sampled, hiscopy, -⟩ := (harrives.course hprepare hstart).isCopy_at hi hcopy
  have hhappens := harrives.happens hprepare hstart hm (by simp)
  have hhorizon : core.horizon = state.core.horizon :=
    Except.ok.inj (hhappens.inSetting.horizon_eq.symm.trans hsetting.horizon_eq)
  rcases h.sends _ hhappens sender node msg sampled rfl hout hiscopy.connected hiscopy.kept
    hiscopy.sum with hlate | ⟨script, hscript, fireAt, hfireAt, hentry⟩
  · rw [← hiscopy.fireAt] at hlate
    exact absurd hbelow (not_lt.mpr (hhorizon ▸ hlate))
  -- The crash was queued before the message was sent.
  obtain ⟨crash, hcrash, hcrashAt, hcrashKind⟩ :=
    exists_prepared_of_script hprepare hscript hentry
  have hbefore : crash.key < event.key := by
    have hsent : Faulted prepared.queue.toList (log.take i) core :=
      Course.faulted ⟨prepared, _, core, hprepare, ((harrives.moments_steps hstart).through hi).1⟩
    have hseq := ((harrives.course hprepare hstart).networked_at hi).queue.seq_lt
      (List.mem_append.mpr (hsent.kept crash hcrash).symm)
    refine key_lt_of_fresh ?_ (hseq.trans_le hiscopy.seq)
    rw [hcrashAt, hiscopy.fireAt]
    exact hfireAt
  rcases hfaulted.kept crash hcrash with hqueued | htaken
  · rw [PriorityQueue.pop_eq_some_iff.mp hpop, List.mem_cons] at hqueued
    rcases hqueued with rfl | hrest
    · exact lt_irrefl _ hbefore
    · exact absurd (PriorityQueue.key_le_of_pop hpop crash hrest) (not_le.mpr hbefore)
  · exact hup (hfaulted.down node (h.restarts.ne_restart hprepare hout) crash htaken hcrashKind)

/-- What a turn takes did not go astray. -/
theorem Turn.not_astray {next : RunState N} {event : Scheduled N} {count : UInt64}
    (h : Turn codec ops state event next) (hstate : TabledRun count ops.length state)
    (hpos : 0 < count.toNat) : ¬ Astray state.core event := by
  cases h with
  | skip hpop hbelow hresolve => exact not_astray_of_skip hresolve
  | fire hpop hbelow hresolve hhandle =>
    intro hastray
    cases hhandle.symm.trans
      ((hstate.handle_eq_error_iff hpos (.intro hpop hbelow hresolve)).mpr hastray)

/-- Nothing goes astray in a run whose loop ends, of what is queued below the horizon. -/
theorem Execution.exists_turn_of_queued (e : Execution N data workload codec seed)
    {event : Scheduled N} (hbelow : event.fireAt < e.final.core.horizon)
    (hevent : event ∈ takenIn e.moments ∨ event ∈ e.course.core.queue.toList) :
    ∃ before at', Arrives codec (resolveOps data workload seed) e.prepared e.started before at' ∧
      event ∈ at'.core.queue.toList ∧ ¬ Astray at'.core event := by
  rcases hevent with htaken | hqueued
  · obtain ⟨before, at', next, harrives, hturn⟩ := e.arrives.exists_turn htaken
    obtain ⟨queue, hpop, -⟩ := hturn.pop_eq
    exact ⟨before, at', harrives, PriorityQueue.mem_of_pop hpop, hturn.not_astray
      (harrives.reaches.tabled e.prepare_eq e.start_eq) (nodeCount_pos data)⟩
  · obtain ⟨hstops, -⟩ := e.loop.stops
    rw [hstops.keeps.1] at hbelow
    exact absurd (hstops.horizon_le.1 event hqueued) (not_le.mpr hbelow)

/-- A run whose loop ends stays in the cluster. -/
theorem Execution.staysInCluster (e : Execution N data workload codec seed) :
    StaysInCluster N data workload codec seed := by
  have hcount {before : List (Moment N)} {at' : RunState N} (harrives : Arrives codec
      (resolveOps data workload seed) e.prepared e.started before at') :
      at'.core.nodeCount = nodeCount data :=
    (harrives.reaches.inSetting e.prepare_eq e.start_eq).nodeCount_eq
  refine ⟨fun script hscript fireAt node hentry ↦ ?_, fun m hm sender recipient msg sampled hact
    hout hconnected hkept hsum ↦ ?_⟩
  · by_contra hout
    obtain ⟨mode, hfaults⟩ := script_eq_some hscript
    obtain ⟨event, hevent, hat, hkind⟩ := exists_prepared_of_script e.prepare_eq hscript hentry
    obtain ⟨before, at', harrives, -, hstays⟩ := e.exists_turn_of_queued
      (hat ▸ e.lt_horizon hfaults hentry) (e.course.faulted.kept event hevent).symm
    exact hstays ⟨node, hcount harrives ▸ UInt64.not_lt.mp hout, .inl hkind⟩
  · obtain ⟨core, act⟩ := m
    obtain rfl : act = .send sender recipient msg := hact
    refine or_iff_not_imp_left.mpr fun hearly ↦ ?_
    obtain ⟨i, hi⟩ := List.mem_iff_getElem?.mp (e.mem_moments hm)
    have hcopy : copyAt sender recipient msg (core.arrival sender recipient sampled) core.seq ∈
        core.copies sender recipient msg := by
      obtain ⟨-, core', hcopies⟩ := e.course.copies_at hi
      generalize core.copies sender recipient msg = copies at hcopies ⊢
      cases hcopies with
      | none hdropped => simp [hconnected, hkept] at hdropped
      | some _ _ hsum' _ hcopies =>
        obtain rfl := Except.ok.inj (hsum.symm.trans hsum')
        rw [hcopies]
        exact List.mem_cons_self
    have hhorizon : core.horizon = e.final.core.horizon :=
      Except.ok.inj (hm.inSetting.horizon_eq.symm.trans e.queueOrdered.horizon_eq)
    obtain ⟨before, at', harrives, hqueued, hstays⟩ := e.exists_turn_of_queued
      (hhorizon ▸ not_le.mp hearly) (e.course.copy_kept hi hcopy)
    have hdown : recipient ∈ at'.core.crashed := by
      by_contra hup
      exact hstays ⟨recipient, hcount harrives ▸ hout, .inr ⟨hup, sender, msg, rfl⟩⟩
    have hfaulted : Faulted e.prepared.queue.toList before at'.core :=
      (harrives.course e.prepare_eq e.start_eq).faulted
    obtain ⟨crash, htaken, hkind⟩ := hfaulted.crashed recipient hdown
    obtain ⟨script, hscript, ⟨fireAt, action⟩, hentry, hat, haction⟩ :=
      exists_script_of_prepared e.prepare_eq (hfaulted.stems crash (.inl htaken) _ hkind) hkind
        (UInt64.not_lt.mpr hout)
    obtain rfl := lowerAction_eq_crash haction
    obtain rfl : fireAt = crash.fireAt := hat
    have hkey := (harrives.course e.prepare_eq e.start_eq).networked.queue.ahead crash htaken _
      hqueued
    exact ⟨script, hscript, _, Scheduled.fireAt_le_of_key_le hkey.le, hentry⟩

end Sends

/-! ### Whole runs -/

/-- In every state that a run reaches, the node table has a slot for each node of the cluster, and
what the driver is handed is in the tables. -/
def InBounds (N : Node) (data : PlanData) (workload : Option Strategy)
    (codec : Option (ClientCodec N)) (seed : Seed) : Prop :=
  ∀ prepared started, prepareCore N data seed = .ok prepared →
    startRun codec (resolveOps data workload seed) prepared = .ok started →
      ∀ state, Reaches codec (resolveOps data workload seed) started state →
        state.nodes.length = (nodeCount data).toNat ∧ ∀ event popped core,
          Fires state event popped core →
            popped.InTable state.nodes.length (resolveOps data workload seed).length

/-- A run never gets to an event that goes astray. -/
def NeverAstray (N : Node) (data : PlanData) (workload : Option Strategy)
    (codec : Option (ClientCodec N)) (seed : Seed) : Prop :=
  ∀ prepared started, prepareCore N data seed = .ok prepared →
    startRun codec (resolveOps data workload seed) prepared = .ok started →
      ∀ state, Reaches codec (resolveOps data workload seed) started state →
        ∀ event queue, state.core.queue.pop = some (event, queue) →
          event.fireAt < state.core.horizon → ¬ Astray state.core event

variable {data : PlanData} {workload : Option Strategy} {seed : Seed}

/-- What a run gets to is in its tables exactly when it does not go astray. -/
theorem inBounds_iff_neverAstray :
    InBounds N data workload codec seed ↔ NeverAstray N data workload codec seed := by
  constructor
  · intro hbounds prepared started hprepare hstart state hreach event queue hpop hbelow hastray
    have hstate := hreach.tabled hprepare hstart
    cases hresolve : SchedCore.resolve { state.core with queue := queue } event with
    | mk popped core =>
      cases popped with
      | none => exact not_astray_of_skip hresolve hastray
      | some popped =>
        have hfires : Fires state event popped core := .intro hpop hbelow hresolve
        have hin :=
          (hbounds prepared started hprepare hstart state hreach).2 event popped core hfires
        exact (hstate.inTable_iff (nodeCount_pos data) hfires).mp hin hastray
  · intro hnever prepared started hprepare hstart state hreach
    have hstate := hreach.tabled hprepare hstart
    refine ⟨hstate.nodes, fun event popped core hfires ↦ ?_⟩
    refine (hstate.inTable_iff (nodeCount_pos data) hfires).mpr ?_
    obtain ⟨hpop, hbelow, -⟩ := hfires
    exact hnever prepared started hprepare hstart state hreach event _ hpop hbelow

/-- A run never indexes a table out of bounds, and every id and index that it uses is in its table,
exactly when it never gets to an event that goes astray. It does not when its script and its sends
stay in the cluster, and they do in every run that returns. -/
theorem runDeterministic_inBounds :
    ((∀ fuel nodeDef, runDeterministic fuel data nodeDef workload codec seed ≠
        .error .outOfBounds) ↔ NeverAstray N data workload codec seed) ∧
    (InBounds N data workload codec seed ↔ NeverAstray N data workload codec seed) ∧
    (StaysInCluster N data workload codec seed → NeverAstray N data workload codec seed) ∧
    ∀ fuel nodeDef run, runDeterministic fuel data nodeDef workload codec seed = .ok (.ok run) →
      StaysInCluster N data workload codec seed := by
  refine ⟨⟨fun hnever prepared started hprepare hstart state hreach event queue hpop hbelow hastray
      ↦ ?_, fun hnever fuel nodeDef herror ↦ ?_⟩, inBounds_iff_neverAstray,
    fun hstays prepared started hprepare hstart state hreach event queue hpop hbelow ↦ ?_,
    fun fuel nodeDef run hrun ↦ ?_⟩
  · obtain ⟨fuel, nodeDef, herror⟩ := exists_outOfBounds_iff.mpr ⟨prepared, started, state, event,
      queue, hprepare, hstart, hreach, hpop, hbelow, hastray⟩
    exact hnever fuel nodeDef herror
  · obtain ⟨prepared, started, state, event, queue, hprepare, hstart, hreach, hpop, hbelow,
      hastray⟩ := exists_outOfBounds_iff.mp ⟨fuel, nodeDef, herror⟩
    exact hnever prepared started hprepare hstart state hreach event queue hpop hbelow hastray
  · obtain ⟨log, harrives⟩ := hreach.arrives prepared
    exact hstays.not_astray hprepare hstart harrives hpop hbelow
  · obtain ⟨e, -⟩ := exists_execution hrun
    exact e.staysInCluster

/-- A node that promises to send to nodes of the cluster only. -/
theorem KeepsTo.staysInCluster {timers : Duration → Prop}
    (h : KeepsTo N (·.id < nodeCount data) timers) (hrestarts : RestartsInCluster data) :
    StaysInCluster N data workload codec seed := by
  refine ⟨hrestarts, fun m hm sender recipient msg sampled hact hout _ _ _ ↦ ?_⟩
  exact absurd ((h.happens (fun _ ↦ id) hm).recipients sender recipient msg hact)
    (UInt64.not_lt.mpr hout)

/-- The couriers send to node 1 of two only. -/
theorem courier_inBounds :
    (∀ fuel nodeDef, runDeterministic fuel courierPlan nodeDef none (some courierCodec) ⟨0⟩ ≠
      .error .outOfBounds) ∧ InBounds courier courierPlan none (some courierCodec) ⟨0⟩ := by
  have hkeeps : KeepsTo courier (·.id < nodeCount courierPlan) fun _ ↦ True := by
    have hlt : (1 : UInt64) < nodeCount courierPlan := by decide
    exact ⟨fun _ _ _ ↦ trivial, fun _ _ _ _ _ ↦ trivial, fun _ _ _ _ ↦ trivial,
      fun _ _ _ _ _ ↦ ⟨hlt, hlt, trivial⟩⟩
  have hstays : StaysInCluster courier courierPlan none (some courierCodec) ⟨0⟩ :=
    hkeeps.staysInCluster fun script hscript ↦ by cases hscript
  exact ⟨runDeterministic_inBounds.1.mpr (runDeterministic_inBounds.2.2.1 hstays),
    runDeterministic_inBounds.2.1.mpr (runDeterministic_inBounds.2.2.1 hstays)⟩

/-- A node that sends a message to node 7 when it starts. -/
def stray : Node where
  State := Unit
  Msg := Unit
  Timer := Unit
  Op := Unit
  Response := Unit
  default := ()
  debug _ := "()"
  onStart state := .send ⟨7⟩ () (.done state)
  onMsg state _ _ := .done state
  onTimer state _ := .done state
  onClientOp state _ _ := .done (state, .done ())

/-- A node that sends to a node that does not exist, and a script that restarts one. -/
theorem stray_outOfBounds :
    @runDeterministic stray 4 (counterPlan 1 [] []) none none none ⟨0⟩ = .error .outOfBounds ∧
      @runDeterministic counter 4 (counterPlan 1 [⟨.fromMillis 1, .restart ⟨5⟩⟩] []) none none none
        ⟨0⟩ = .error .outOfBounds :=
  ⟨eq_error_of_toError (by decide +kernel), eq_error_of_toError (by decide +kernel)⟩

end Propsim.Simulator
