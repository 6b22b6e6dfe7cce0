import Propsim.Simulator.Deadlines
import Propsim.Simulator.Gossip
import Propsim.Simulator.Instants
import Propsim.Simulator.Timers

/-!
# Convergence of the gossip example

When the partitions of a cluster of gossip nodes heal, every node broadcasts what it knows within
the longest interval of its timer, and its broadcast arrives within the longest delay of the
network. So on a network that loses nothing, the deadline of the example is met whenever it is at
least the sum of the two, for every number of nodes, every order and duplication of messages, and
every seed (`gossip_converges`).
-/

set_option autoImplicit false
set_option relaxedAutoImplicit false

namespace Propsim.Simulator

open Foundation Interchange Propsim.Core

variable {codec : Option (ClientCodec gossipNode)} {ops : List FrozenOp}

/-! ### What the nodes hold and what is on its way -/

/-- The longest span of the timer of a gossip node, in nanoseconds. -/
def longestInterval : ℕ := 59000000

theorem nanos_longestInterval : (Duration.fromMillis 60).nanos = longestInterval + 1000000 := by
  simp [Duration.nanos_fromMillis, longestInterval]

/-- The key of the timer of a node. -/
def gossipKey (i : NodeId) : UInt64 × String :=
  SchedCore.timerKey (N := gossipNode) i GossipTimer.broadcast

/-- A node knows a value. -/
def Knows (nodes : List (Option GossipState)) (i : NodeId) (v : UInt64) : Prop :=
  ∃ node, nodes[i.id.toNat]? = some (some node) ∧ v ∈ node.known

/-- A message that brings a value to a node arrives by a time. -/
def Coming (core : SchedCore gossipNode) (i : NodeId) (v : UInt64) (due : ℕ) : Prop :=
  ∃ event ∈ core.queue.toList, ∃ (sender : NodeId) (msg : List UInt64),
    event.kind = .deliver sender i msg ∧ v ∈ msg ∧ event.fireAt.nanos ≤ due

/-- The timer of a node fires by a time. -/
def Due (core : SchedCore gossipNode) (i : NodeId) (due : ℕ) : Prop :=
  ∃ event ∈ core.queue.toList, event.kind = .timer i .broadcast (core.timerGen (gossipKey i)) ∧
    event.fireAt.nanos ≤ due

theorem Coming.mono {core : SchedCore gossipNode} {i : NodeId} {v : UInt64} {due due' : ℕ}
    (h : Coming core i v due) (hdue : due ≤ due') : Coming core i v due' := by
  obtain ⟨event, hevent, sender, msg, hkind, hv, hle⟩ := h
  exact ⟨event, hevent, sender, msg, hkind, hv, hle.trans hdue⟩

theorem Due.mono {core : SchedCore gossipNode} {i : NodeId} {due due' : ℕ} (h : Due core i due)
    (hdue : due ≤ due') : Due core i due' := by
  obtain ⟨event, hevent, hkind, hle⟩ := h
  exact ⟨event, hevent, hkind, hle.trans hdue⟩

/-- The timers of different nodes have different keys. -/
theorem gossipKey_injective : Function.Injective gossipKey := fun _ _ h ↦
  NodeId.eq_of_toNat_eq (congrArg UInt64.toNat (Prod.mk.inj h).1)

/-- Merging values into a node loses nothing. -/
theorem Knows.set {nodes : List (Option GossipState)} {i : NodeId} {v : UInt64}
    (h : Knows nodes i v) {j : NodeId} {node node' : GossipState}
    (hslot : nodes[j.id.toNat]? = some (some node)) (hgrows : ∀ w ∈ node.known, w ∈ node'.known) :
    Knows (nodes.set j.id.toNat (some node')) i v := by
  obtain ⟨before, hbefore, hv⟩ := h
  by_cases hsame : j.id.toNat = i.id.toNat
  · obtain rfl := NodeId.eq_of_toNat_eq hsame
    obtain rfl := Option.some.inj (Option.some.inj (hslot.symm.trans hbefore))
    exact ⟨node', List.getElem?_set_self (List.getElem?_eq_some_iff.mp hslot).1, hgrows v hv⟩
  · exact ⟨before, by rw [List.getElem?_set_ne hsame]; exact hbefore, hv⟩

/-! ### The callbacks of a gossip node -/

/-- Putting back what a slot holds changes nothing. -/
theorem set_of_getElem? {α : Type*} {items : List α} {i : ℕ} {a : α} (h : items[i]? = some a) :
    items.set i a = items := by
  obtain ⟨hlt, rfl⟩ := List.getElem?_eq_some_iff.mp h
  exact List.set_getElem_self hlt

/-- Starting a node publishes its value and arms its timer. -/
theorem gossip_dispatchStart {core core' : SchedCore gossipNode}
    {nodes nodes' : List (Option GossipState)} {i : NodeId}
    (hslots : Occupied (N := gossipNode) nodes)
    (h : dispatchStart (N := gossipNode) codec core nodes i = .ok (core', nodes')) :
    core.armTimer i GossipTimer.broadcast (.fromMillis 50) = .ok core' ∧
      ∃ node, nodes[i.id.toNat]? = some (some node) ∧
        nodes' = nodes.set i.id.toNat (some ⟨some i, node.known.insert (100 + i.id)⟩) := by
  obtain ⟨-, ⟨hnone, -⟩ | ⟨node, after, hslot, hrun, rfl⟩⟩ := runCallback_eq_ok h
  · cases hslots none (List.mem_of_getElem? hnone)
  · obtain ⟨armed, harm, hrun⟩ := run_setTimer_eq_ok.mp (run_me_eq_ok.mp hrun)
    obtain ⟨rfl, rfl⟩ := Prod.mk.inj (run_done_eq_ok.mp hrun)
    exact ⟨harm, node, hslot, rfl⟩

/-- Handing a message to a node merges its values. -/
theorem gossip_dispatchMsg {core core' : SchedCore gossipNode}
    {nodes nodes' : List (Option GossipState)} {recipient sender : NodeId} {msg : List UInt64}
    (hslots : Occupied (N := gossipNode) nodes)
    (h : dispatchMsg (N := gossipNode) codec core nodes recipient sender msg =
      .ok (core', nodes')) :
    core' = core ∧ ∃ node, nodes[recipient.id.toNat]? = some (some node) ∧
      nodes' = nodes.set recipient.id.toNat
        (some { node with known := node.known.insertAll msg }) := by
  obtain ⟨-, ⟨hnone, -⟩ | ⟨node, after, hslot, hrun, rfl⟩⟩ := runCallback_eq_ok h
  · cases hslots none (List.mem_of_getElem? hnone)
  · obtain ⟨rfl, rfl⟩ := Prod.mk.inj (run_done_eq_ok.mp hrun)
    exact ⟨rfl, node, hslot, rfl⟩

/-- Firing the timer of a node broadcasts what it knows, and arms the timer again. -/
theorem gossip_dispatchTimer {core core' : SchedCore gossipNode}
    {nodes nodes' : List (Option GossipState)} {i : NodeId} {timer : GossipTimer}
    (hslots : Occupied (N := gossipNode) nodes)
    (h : dispatchTimer (N := gossipNode) codec core nodes i timer = .ok (core', nodes')) :
    nodes' = nodes ∧ ∃ (node : GossipState) (sent : SchedCore gossipNode) (rng : SimRng)
      (jitter : Duration), nodes[i.id.toNat]? = some (some node) ∧
        (core.peers i).foldlM (fun core peer ↦ core.scheduleDelivery i peer node.known.toList)
          core = .ok sent ∧ jitter.nanos ≤ longestInterval ∧
        SchedCore.armTimer { sent with rng := rng } i GossipTimer.broadcast jitter =
          .ok core' := by
  obtain ⟨-, ⟨hnone, -⟩ | ⟨node, after, hslot, hrun, rfl⟩⟩ := runCallback_eq_ok h
  · cases hslots none (List.mem_of_getElem? hnone)
  · have hrange : (40 : UInt64) < 60 := by decide
    have hcallback : gossipNode.onTimer node timer = .broadcast node.known.toList
        (.nextU64 fun z ↦ .setTimer GossipTimer.broadcast (.fromMillis (40 + z % (60 - 40)))
          (.done node)) := congrArg (Effects.broadcast _) (Effects.durationMs_eq hrange _)
    rw [hcallback] at hrun
    obtain ⟨sent, hsent, hrun⟩ := run_broadcast_eq_ok.mp hrun
    obtain ⟨armed, harm, hrun⟩ := run_setTimer_eq_ok.mp (run_nextU64_eq_ok.mp hrun)
    obtain ⟨rfl, rfl⟩ := Prod.mk.inj (run_done_eq_ok.mp hrun)
    refine ⟨set_of_getElem? hslot, _, sent, _, _, hslot, hsent, ?_, harm⟩
    refine Nat.le_of_add_le_add_right (b := 1000000) ?_
    rw [← nanos_longestInterval]
    exact (nanos_durationMs hrange _).2

/-- An operation that a node is handed stays pending. -/
theorem gossip_dispatchClientOp {core core' : SchedCore gossipNode}
    {nodes nodes' : List (Option GossipState)} {process : NodeId} {op : FrozenOp}
    (h : dispatchClientOp (N := gossipNode) codec core nodes process op = .ok (core', nodes')) :
    nodes' = nodes ∧ core'.queue = core.queue ∧ core'.timerGen = core.timerGen := by
  have hclose (core : SchedCore gossipNode) (token : OpToken) (kind : OpKind) (value : Value) :
      (core.closeOp token kind value).queue = core.queue ∧
        (core.closeOp token kind value).timerGen = core.timerGen := by
    obtain ⟨_, _, heq⟩ := closeOp_frame core token kind value
    rw [heq]
    exact ⟨rfl, rfl⟩
  unfold dispatchClientOp at h
  simp only at h
  split at h
  · obtain ⟨rfl, rfl⟩ := Prod.mk.inj (Except.ok.inj h)
    exact ⟨rfl, hclose _ _ _ _⟩
  · split at h
    · cases h
    · obtain ⟨rfl, rfl⟩ := Prod.mk.inj (Except.ok.inj h)
      exact ⟨rfl, hclose _ _ _ _⟩
    · rename_i node hslot
      obtain ⟨rfl, rfl⟩ := Prod.mk.inj (Except.ok.inj h)
      exact ⟨set_of_getElem? hslot, rfl, rfl⟩

/-! ### What a turn does -/

/-- What a turn of gossip nodes that are all up does: nothing that the nodes notice, the merge of a
message, or a broadcast, which reaches every other node that is not cut off. -/
inductive GossipTurn (state : RunState gossipNode) (event : Scheduled gossipNode)
    (next : RunState gossipNode) : Prop
  | idle (hmessage : ∀ sender i msg, event.kind ≠ .deliver sender i msg)
      (htimer : ∀ i, event.kind ≠ .timer i .broadcast (state.core.timerGen (gossipKey i)))
      (hnodes : next.nodes = state.nodes) (hgen : next.core.timerGen = state.core.timerGen)
  | merge {sender i : NodeId} {msg : List UInt64} {node : GossipState}
      (hkind : event.kind = .deliver sender i msg)
      (hslot : state.nodes[i.id.toNat]? = some (some node))
      (hnodes : next.nodes =
        state.nodes.set i.id.toNat (some { node with known := node.known.insertAll msg }))
      (hgen : next.core.timerGen = state.core.timerGen)
  | spread {i : NodeId} {node : GossipState}
      (hkind : event.kind = .timer i .broadcast (state.core.timerGen (gossipKey i)))
      (hslot : state.nodes[i.id.toNat]? = some (some node)) (hnodes : next.nodes = state.nodes)
      (hgen : ∀ j, j ≠ i → next.core.timerGen (gossipKey j) = state.core.timerGen (gossipKey j))
      (hdue : Due next.core i (event.fireAt.nanos + longestInterval))
      (hsent : state.core.partitions = [] → ∀ j, j.id < state.core.nodeCount → j ≠ i →
        ∀ v ∈ node.known, Coming next.core j v
          (event.fireAt.nanos + maxDelay state.core.model))

/-- Arming the timer of a node makes it due, and leaves the other timers alone. -/
theorem due_of_armTimer {core core' : SchedCore gossipNode} {i : NodeId} {after : Duration}
    (h : core.armTimer i GossipTimer.broadcast after = .ok core') :
    Due core' i (core.now.nanos + after.nanos) ∧
      ∀ j, j ≠ i → core'.timerGen (gossipKey j) = core.timerGen (gossipKey j) := by
  obtain ⟨fireAt, hsum, rfl⟩ := armTimer_eq_ok h
  have hgen : (core.cancelTimer i GossipTimer.broadcast).timerGen (gossipKey i) =
      core.timerGen (gossipKey i) + 1 := Function.update_self _ _ _
  refine ⟨⟨_, PriorityQueue.mem_push.mpr (.inl rfl), ?_, (nanos_of_addDuration hsum).le⟩,
    fun j hj ↦ Function.update_of_ne (gossipKey_injective.ne hj) _ _⟩
  exact congrArg (EventKind.timer (N := gossipNode) i GossipTimer.broadcast) hgen.symm

/-- The timer of a node fires on the node: it broadcasts, and its timer is due again. -/
theorem spread_of_dispatchTimer {core core' : SchedCore gossipNode}
    {nodes nodes' : List (Option GossipState)} {i : NodeId} {timer : GossipTimer}
    {model : NetworkModel} {log : List (Moment gossipNode)} (hnetwork : Networked model log core)
    (hloss : model.loss.value.le .zero = true) (hup : core.crashed = [])
    (hslots : Occupied (N := gossipNode) nodes)
    (h : dispatchTimer (N := gossipNode) codec core nodes i timer = .ok (core', nodes')) :
    nodes' = nodes ∧ Due core' i (core.now.nanos + longestInterval) ∧
      (∀ j, j ≠ i → core'.timerGen (gossipKey j) = core.timerGen (gossipKey j)) ∧
      ∃ node, nodes[i.id.toNat]? = some (some node) ∧
        (core.partitions = [] → ∀ j, j.id < core.nodeCount → j ≠ i → ∀ v ∈ node.known,
          Coming core' j v (core.now.nanos + maxDelay model)) := by
  obtain ⟨hnodes, node, sent, rng, jitter, hslot, hsent, hjitter, harm⟩ :=
    gossip_dispatchTimer hslots h
  obtain ⟨hdue, hothers⟩ := due_of_armTimer harm
  have hframe : SameCluster core sent ∧ sent.timerGen = core.timerGen := by
    refine foldlM_invariant (P := fun c : SchedCore gossipNode ↦
      SameCluster core c ∧ c.timerGen = core.timerGen) (fun peer _ c c' hc hsend ↦ ?_)
      ⟨.refl core, rfl⟩ hsent
    refine ⟨hc.1.trans (scheduleDelivery_steps hsend).sameCluster, ?_⟩
    rw [scheduleDelivery_frame hsend]
    exact hc.2
  refine ⟨hnodes, hdue.mono ?_, fun j hj ↦ (hothers j hj).trans (congrFun hframe.2 _), node, hslot,
    fun hwhole j hlt hj v hv ↦ ?_⟩
  · rw [← hframe.1.now_eq]
    exact Nat.add_le_add_left hjitter _
  · have hconnected : core.connected i j = true := by simp [SchedCore.connected, hup, hwhole]
    obtain ⟨event, hevent, hkind, hle⟩ := exists_copy_of_broadcast hnetwork hloss
      (mem_peers_iff.mpr ⟨hlt, hj⟩) hconnected hsent
    exact ⟨event, (armTimer_steps harm).mem_queue hevent, i, node.known.toList, hkind, hv, hle⟩

/-- Assumes: all nodes are up and stay so, and the network loses nothing. -/
theorem Turn.gossip {state next : RunState gossipNode} {event : Scheduled gossipNode}
    (h : Turn codec ops state event next) {model : NetworkModel} {log : List (Moment gossipNode)}
    (hnetwork : Networked model log state.core) (hloss : model.loss.value.le .zero = true)
    (hup : state.core.crashed = []) (hslots : Occupied state.nodes)
    (hrestart : ∀ i, event.kind ≠ .fault (.restart i)) : GossipTurn state event next := by
  have hnotCrashed (i : NodeId) : i ∉ state.core.crashed := hup ▸ List.not_mem_nil
  cases h.outcome with
  | @skipped queue hpop core hresolve heq =>
    obtain rfl := heq
    refine .idle (fun sender i msg hkind ↦ ?_) (fun i hkind ↦ ?_) rfl (resolve_frame hresolve).2.2
    · have hsome : (SchedCore.resolve { state.core with queue := queue } event).1 =
          some (.deliver sender i msg) := resolve_eq_deliver.mpr ⟨hkind, hnotCrashed i⟩
      rw [hresolve] at hsome
      cases hsome
    · have hsome : (SchedCore.resolve { state.core with queue := queue } event).1 =
          some (.timer i GossipTimer.broadcast) := resolve_eq_timer.mpr ⟨hkind, hnotCrashed i⟩
      rw [hresolve] at hsome
      cases hsome
  | @dispatched queue hpop hbelow core core' popped hresolve hdispatch hframes hcore hqueue =>
    have hgen : next.core.timerGen = core'.timerGen := by rw [hcore]
    have hafter := (MomentStep.take log hpop hbelow hresolve).networked hnetwork
    cases resolves_of_resolve hresolve with
    | deliver hkind halive =>
      obtain ⟨rfl, node, hslot, hnodes⟩ := gossip_dispatchMsg hslots hdispatch
      exact .merge hkind hslot hnodes hgen
    | @timer i timer gen hkind hcurrent halive =>
      obtain ⟨hnodes, hdue, hothers, node, hslot, hsent⟩ :=
        spread_of_dispatchTimer hafter hloss hup hslots hdispatch
      cases timer
      have hgen' : state.core.timerGen (gossipKey i) = gen := beq_iff_eq.mp hcurrent
      refine .spread (hgen'.symm ▸ hkind) hslot hnodes
        (fun j hj ↦ (congrFun hgen _).trans (hothers j hj)) ?_ fun hwhole j hlt hj v hv ↦ ?_
      · obtain ⟨due, hmem, hdueKind, hle⟩ := hdue
        exact ⟨due, hqueue due hmem, (congrFun hgen _).symm ▸ hdueKind, hle⟩
      · obtain ⟨copy, hmem, hcopy⟩ := hsent hwhole j hlt hj v hv
        rw [hnetwork.model_eq]
        exact ⟨copy, hqueue copy hmem, hcopy⟩
    | clientOp hkind =>
      rw [dispatch] at hdispatch
      split at hdispatch
      · cases hdispatch
      · obtain ⟨hnodes, -, hgen'⟩ := gossip_dispatchClientOp hdispatch
        exact .idle (by simp [hkind]) (by simp [hkind]) hnodes (hgen.trans hgen')
    | @fault action hkind =>
      have hsame : next.nodes = state.nodes ∧ core'.timerGen = state.core.timerGen := by
        have hresolved := (resolve_frame hresolve).2.2
        cases action with
        | restart i => exact absurd hkind (hrestart i)
        | partition =>
          obtain ⟨rfl, hnodes⟩ := Prod.mk.inj (Except.ok.inj hdispatch)
          exact ⟨hnodes.symm, hresolved⟩
        | healAll =>
          obtain ⟨rfl, hnodes⟩ := Prod.mk.inj (Except.ok.inj hdispatch)
          exact ⟨hnodes.symm, hresolved⟩
        | crash =>
          obtain ⟨rfl, hnodes⟩ := Prod.mk.inj (Except.ok.inj hdispatch)
          exact ⟨hnodes.symm, hresolved⟩
      exact .idle (by simp [hkind]) (by simp [hkind]) hsame.1 (hgen.trans hsame.2)

section Turns

variable {state next : RunState gossipNode} {event : Scheduled gossipNode}

/-- A node forgets nothing. -/
theorem GossipTurn.knows (h : GossipTurn state event next) {i : NodeId} {v : UInt64}
    (hknows : Knows state.nodes i v) : Knows next.nodes i v := by
  cases h with
  | idle _ _ hnodes => rwa [hnodes]
  | merge _ hslot hnodes =>
    rw [hnodes]
    exact hknows.set hslot fun w hw ↦ mem_insertAll_known.mpr (.inl hw)
  | spread _ _ hnodes => rwa [hnodes]

/-- A value that is on its way stays so until the node knows it. -/
theorem GossipTurn.coming (h : GossipTurn state event next)
    (hturn : Turn codec ops state event next) {i : NodeId} {v : UInt64} {due : ℕ}
    (hcoming : Coming state.core i v due) :
    Coming next.core i v due ∨ Knows next.nodes i v := by
  obtain ⟨copy, hcopy, sender, msg, hkind, hv, hle⟩ := hcoming
  rcases hturn.mem_queue hcopy with rfl | hqueued
  · right
    cases h with
    | idle hmessage => exact absurd hkind (hmessage _ _ _)
    | merge hmerged hslot hnodes =>
      obtain ⟨-, rfl, rfl⟩ := EventKind.deliver.inj (hkind.symm.trans hmerged)
      rw [hnodes]
      exact ⟨_, List.getElem?_set_self (List.getElem?_eq_some_iff.mp hslot).1,
        mem_insertAll_known.mpr (.inr hv)⟩
    | spread hfired => cases hkind.symm.trans hfired
  · exact .inl ⟨copy, hqueued, sender, msg, hkind, hv, hle⟩

/-- A timer that is due stays so until it fires: then the node broadcasts what it knows, and its
timer is due again. -/
theorem GossipTurn.due (h : GossipTurn state event next) (hturn : Turn codec ops state event next)
    {i : NodeId} {due : ℕ} (hdue : Due state.core i due) :
    Due next.core i due ∨ event.fireAt.nanos ≤ due ∧
      Due next.core i (event.fireAt.nanos + longestInterval) ∧
      (state.core.partitions = [] → ∀ v, Knows state.nodes i v →
        ∀ j, j.id < state.core.nodeCount → j ≠ i →
          Coming next.core j v (event.fireAt.nanos + maxDelay state.core.model)) := by
  obtain ⟨firing, hfiring, hkind, hle⟩ := hdue
  have hstays (hgen : next.core.timerGen (gossipKey i) = state.core.timerGen (gossipKey i))
      (hother : firing ≠ event) : Due next.core i due :=
    ⟨firing, (hturn.mem_queue hfiring).resolve_left hother, hgen.symm ▸ hkind, hle⟩
  cases h with
  | idle _ htimer _ hgen =>
    refine .inl (hstays (congrFun hgen _) ?_)
    rintro rfl
    exact htimer i hkind
  | merge hmerged _ _ hgen =>
    refine .inl (hstays (congrFun hgen _) ?_)
    rintro rfl
    cases hkind.symm.trans hmerged
  | @spread j node hfired hslot _ hgen hagain hsent =>
    by_cases hsame : i = j
    · subst hsame
      refine .inr ⟨(Duration.le_iff.mp (hturn.fireAt_le hfiring)).trans hle, hagain, ?_⟩
      rintro hwhole v ⟨node', hslot', hv⟩ j hlt hj
      obtain rfl : node = node' := Option.some.inj (Option.some.inj (hslot.symm.trans hslot'))
      exact hsent hwhole j hlt hj v hv
    · refine .inl (hstays (hgen i hsame) ?_)
      rintro rfl
      exact hsame (EventKind.timer.inj (hkind.symm.trans hfired)).1

end Turns

/-! ### The invariant -/

/-- A script that heals at a time: it has partitions before that time, and heals from then on. -/
structure HealsAt (script : List ScriptedEvent) (healAt : Duration) : Prop where
  heals : ⟨healAt, .healAll⟩ ∈ script
  only : ∀ entry ∈ script, entry.action = .healAll ∧ healAt ≤ entry.fireAt ∨
    (∃ a b, entry.action = .partition a b) ∧ entry.fireAt < healAt

/-- The cluster after the heal: each value is known, on its way, or about to be broadcast by the
node that published it. -/
structure Healed (count : UInt64) (model : NetworkModel) (healAt : Duration)
    (state : RunState gossipNode) : Prop where
  anchored : state.core.events.head? = some (.networkHealed healAt)
  passed : healAt ≤ state.core.now
  whole : state.core.partitions = []
  spreads : ∀ i j, i.id < count → j.id < count →
    Knows state.nodes j (100 + i.id) ∨
      Coming state.core j (100 + i.id) (healAt.nanos + longestInterval + maxDelay model) ∨
      j ≠ i ∧ Due state.core i (healAt.nanos + longestInterval)

/-- A cluster of gossip nodes whose faults are partitions before a time and heals from then on. -/
structure Gossiping (count : UInt64) (model : NetworkModel) (healAt : Duration)
    (state : RunState gossipNode) : Prop where
  network : ∃ log, Networked model log state.core
  up : state.core.crashed = []
  count_eq : state.core.nodeCount = count
  slots : Occupied state.nodes
  faults : ∀ event ∈ state.core.queue.toList, ∀ action, event.kind = .fault action →
    action = .healAll ∧ healAt ≤ event.fireAt ∨
      (∃ a b, action = .partition a b) ∧ event.fireAt < healAt
  own : ∀ i, i.id < count → Knows state.nodes i (100 + i.id)
  due : ∀ i, i.id < count → Due state.core i (state.core.now.nanos + longestInterval)
  shows : ShowsNodes healAt state
  pending : state.core.events = [] →
    ∃ event ∈ state.core.queue.toList, event.kind = .fault .healAll ∧ event.fireAt = healAt
  healed : state.core.events ≠ [] → Healed count model healAt state

section Invariant

variable {count : UInt64} {model : NetworkModel} {healAt : Duration}
  {state next : RunState gossipNode} {event : Scheduled gossipNode}

/-- The event of a turn is a heal, a partition before the heal, or no fault. -/
theorem Gossiping.event_cases (h : Gossiping count model healAt state)
    (hturn : Turn codec ops state event next) :
    event.kind = .fault .healAll ∧ healAt ≤ event.fireAt ∨
      (∃ a b, event.kind = .fault (.partition a b)) ∧ event.fireAt < healAt ∨
      faultOf event = none := by
  obtain ⟨queue, hpop, -⟩ := hturn.pop_eq
  cases hfault : faultOf event with
  | none => exact .inr (.inr rfl)
  | some action =>
    rw [faultOf_eq_some_iff] at hfault
    rcases h.faults event (PriorityQueue.mem_of_pop hpop) action hfault with
      ⟨rfl, hle⟩ | ⟨⟨a, b, rfl⟩, hlt⟩
    · exact .inl ⟨hfault, hle⟩
    · exact .inr (.inl ⟨⟨a, b, hfault⟩, hlt⟩)

/-- A turn keeps each value known, on its way, or about to be broadcast. -/
theorem Gossiping.spreads (h : Gossiping count model healAt state)
    (hturn : Turn codec ops state event next) (hgossip : GossipTurn state event next)
    (hwhole : state.core.partitions = []) {i j : NodeId} (hi : i.id < count) (hj : j.id < count)
    (hspreads : Knows state.nodes j (100 + i.id) ∨
      Coming state.core j (100 + i.id) (healAt.nanos + longestInterval + maxDelay model) ∨
      j ≠ i ∧ Due state.core i (healAt.nanos + longestInterval)) :
    Knows next.nodes j (100 + i.id) ∨
      Coming next.core j (100 + i.id) (healAt.nanos + longestInterval + maxDelay model) ∨
      j ≠ i ∧ Due next.core i (healAt.nanos + longestInterval) := by
  obtain ⟨log, hnetwork⟩ := h.network
  rcases hspreads with hknows | hcoming | ⟨hne, hdue⟩
  · exact .inl (hgossip.knows hknows)
  · exact (hgossip.coming hturn hcoming).elim (.inr ∘ .inl) .inl
  · rcases hgossip.due hturn hdue with hdue | ⟨hle, -, hsent⟩
    · exact .inr (.inr ⟨hne, hdue⟩)
    · have hcoming := hsent hwhole _ (h.own i hi) j (h.count_eq ▸ hj) hne
      rw [hnetwork.model_eq] at hcoming
      exact .inr (.inl (hcoming.mono (Nat.add_le_add_right hle _)))

/-- A turn that heals, or that comes after the heal, leaves the cluster healed. -/
theorem Gossiping.healed_next (h : Gossiping count model healAt state)
    (hturn : Turn codec ops state event next) (hgossip : GossipTurn state event next)
    (hevents : next.core.events ≠ []) : Healed count model healAt next := by
  obtain ⟨log, hnetwork⟩ := h.network
  obtain ⟨queue, hpop, -⟩ := hturn.pop_eq
  have hlater : state.core.now ≤ event.fireAt :=
    hnetwork.queue.later event (PriorityQueue.mem_of_pop hpop)
  have hnext := hturn.events_eq
  by_cases hbefore : state.core.events = []
  · -- The first run event is the heal, which is taken at its time.
    rcases h.event_cases hturn with ⟨hheal, hle⟩ | ⟨⟨a, b, hcut⟩, -⟩ | hnone
    · obtain ⟨first, hfirst, -, rfl⟩ := h.pending hbefore
      have hat : event.fireAt = first.fireAt := le_antisymm (hturn.fireAt_le hfirst) hle
      rw [hbefore, faultOf_eq_some_iff.mpr hheal] at hnext
      refine ⟨by rw [hnext, ← hat]; rfl, by rw [hturn.now_eq, hat],
        hturn.partitions_eq_nil (by simp [hheal]) (.inl hheal), fun i j hi hj ↦ ?_⟩
      by_cases hne : j = i
      · obtain rfl := hne
        exact .inl (hgossip.knows (h.own j hj))
      · rcases hgossip.due hturn (h.due i hi) with hdue | ⟨-, hdue, -⟩
        · refine .inr (.inr ⟨hne, hdue.mono (Nat.add_le_add_right ?_ _)⟩)
          exact hat ▸ Duration.le_iff.mp hlater
        · exact .inr (.inr ⟨hne, hat ▸ hdue⟩)
    · rw [hbefore, faultOf_eq_some_iff.mpr hcut] at hnext
      exact absurd hnext hevents
    · rw [hbefore, hnone] at hnext
      exact absurd hnext hevents
  · obtain ⟨hanchored, hpassed, hwhole, hspreads⟩ := h.healed hbefore
    refine ⟨?_, hturn.now_eq ▸ hpassed.trans hlater, hturn.partitions_eq_nil (fun a b hcut ↦ ?_)
      (.inr hwhole), fun i j hi hj ↦ h.spreads hturn hgossip hwhole hi hj (hspreads i j hi hj)⟩
    · rw [hnext, List.head?_append, hanchored, Option.some_or]
    · rcases h.event_cases hturn with ⟨hheal, -⟩ | ⟨-, hlt⟩ | hnone
      · simp [hheal] at hcut
      · exact absurd (hpassed.trans hlater) (not_le.mpr hlt)
      · simp [faultOf_eq_some_iff.mpr hcut] at hnone

/-- Every turn keeps the invariant. -/
theorem Gossiping.turn (h : Gossiping count model healAt state)
    (hloss : model.loss.value.le .zero = true) (hturn : Turn codec ops state event next) :
    Gossiping count model healAt next := by
  obtain ⟨log, hnetwork⟩ := h.network
  obtain ⟨queue, hpop, -⟩ := hturn.pop_eq
  have hlater : state.core.now ≤ event.fireAt :=
    hnetwork.queue.later event (PriorityQueue.mem_of_pop hpop)
  have hcases := h.event_cases hturn
  have hgossip : GossipTurn state event next :=
    hturn.gossip hnetwork hloss h.up h.slots fun i hrestart ↦ by
      rcases hcases with ⟨hheal, -⟩ | ⟨⟨a, b, hcut⟩, -⟩ | hnone
      · simp [hheal] at hrestart
      · simp [hcut] at hrestart
      · simp [faultOf_eq_some_iff.mpr hrestart] at hnone
  have hhealed := h.healed_next hturn hgossip
  refine ⟨⟨_, (hturn.moments_steps log).invariant (P := Networked model)
    (fun _ _ hstep ↦ hstep.networked) hnetwork⟩, ?_, ?_, hturn.occupied h.slots,
    fun other hother action hkind ↦ ?_, fun i hi ↦ hgossip.knows (h.own i hi), fun i hi ↦ ?_,
    hturn.showsNodes hlater (fun hevents ↦ hturn.now_eq ▸ (hhealed hevents).passed) h.shows,
    fun hevents ↦ ?_, hhealed⟩
  · refine List.eq_nil_iff_forall_not_mem.mpr fun n hn ↦ ?_
    rcases (hturn.mem_crashed_iff n).mp hn with hcrash | ⟨hn, -⟩
    · rcases hcases with ⟨hheal, -⟩ | ⟨⟨a, b, hcut⟩, -⟩ | hnone
      · simp [hheal] at hcrash
      · simp [hcut] at hcrash
      · simp [faultOf_eq_some_iff.mpr hcrash] at hnone
    · rw [h.up] at hn
      cases hn
  · exact (queueProperty_nodeCount count).turn hturn fun _ _ _ ↦ h.count_eq
  · refine h.faults other ?_ action hkind
    have hstays : other ∈ faultEvents state.core.queue.toList := by
      rw [hturn.faultEvents_eq]
      exact List.mem_append_right _ (mem_faultEvents.mpr ⟨hother, action, hkind⟩)
    exact (mem_faultEvents.mp hstays).1
  · rw [hturn.now_eq]
    rcases hgossip.due hturn (h.due i hi) with hdue | ⟨-, hdue, -⟩
    · exact hdue.mono (Nat.add_le_add_right (Duration.le_iff.mp hlater) _)
    · exact hdue
  · have hnext := hturn.events_eq
    rw [hevents, eq_comm, List.append_eq_nil_iff] at hnext
    obtain ⟨first, hfirst, hheal, hat⟩ := h.pending hnext.1
    rcases hturn.mem_queue hfirst with rfl | hstays
    · rw [faultOf_eq_some_iff.mpr hheal] at hnext
      cases hnext.2
    · exact ⟨first, hstays, hheal, hat⟩

end Invariant

/-! ### The start -/

section Executions

variable {data : PlanData} {workload : Option Strategy} {codec : Option (ClientCodec gossipNode)}
  {seed : Seed} {script : List ScriptedEvent} {mode : Mode} {healAt : Duration}

/-- Starting a node makes its value known and its timer due, and leaves the others as they are. -/
theorem started_of_dispatchStart {core core' : SchedCore gossipNode}
    {nodes nodes' : List (Option GossipState)} {i j : NodeId}
    (hslots : Occupied (N := gossipNode) nodes) (hnow : core.now = .zero)
    (h : dispatchStart (N := gossipNode) codec core nodes j = .ok (core', nodes'))
    (hstarted : i = j ∨ Knows nodes i (100 + i.id) ∧ Due core i longestInterval) :
    Knows nodes' i (100 + i.id) ∧ Due core' i longestInterval := by
  obtain ⟨harm, node, hslot, rfl⟩ := gossip_dispatchStart hslots h
  obtain ⟨hdue, hothers⟩ := due_of_armTimer harm
  by_cases hsame : i = j
  · subst hsame
    refine ⟨⟨_, List.getElem?_set_self (List.getElem?_eq_some_iff.mp hslot).1,
      mem_insert_known.mpr (.inl rfl)⟩, hdue.mono ?_⟩
    rw [hnow]
    decide +kernel
  · obtain ⟨hknows, firing, hfiring, hkind, hle⟩ := hstarted.resolve_left hsame
    refine ⟨hknows.set hslot fun w hw ↦ mem_insert_known.mpr (.inr hw), firing,
      (armTimer_steps harm).mem_queue hfiring, ?_, hle⟩
    rw [hothers i hsame]
    exact hkind

/-- Every node has published its value when the loop starts, and its timer is due. -/
theorem gossip_started (e : Execution gossipNode data workload codec seed) {i : NodeId}
    (hi : i.id < nodeCount data) :
    Knows e.started.nodes i (100 + i.id) ∧ Due e.started.core i longestInterval := by
  obtain ⟨core, nodes, hnodes, hpump⟩ := startRun_eq_ok.mp e.start_eq
  have hprepared : e.prepared.now = .zero :=
    prepared_core (P := fun core ↦ core.now = .zero) (fun _ _ _ h ↦ h) (fun _ _ h ↦ h)
      e.prepare_eq fun _ _ ↦ rfl
  have hmem : i.id.toNat ∈ List.range e.prepared.nodeCount.toNat := by
    rw [List.mem_range, e.prepared_nodeCount]
    exact UInt64.lt_iff_toNat_lt.mp hi
  have hstarted : Knows nodes i (100 + i.id) ∧ Due core i longestInterval := by
    refine foldlM_visits
      (P := fun s : SchedCore gossipNode × List (Option GossipState) ↦
        s.1.now = .zero ∧ Occupied (N := gossipNode) s.2)
      (Q := fun s ↦ Knows s.2 i (100 + i.id) ∧ Due s.1 i longestInterval) hmem
      (fun other s s' hs hstart ↦ ?_) (fun s s' hs hstart ↦ ?_)
      (fun other s s' hs hstarted hstart ↦
        started_of_dispatchStart hs.2 hs.1 hstart (.inr hstarted)) ⟨hprepared, ?_⟩ hnodes
    · refine ⟨(runCallback_eq_ok hstart).1.sameCluster.now_eq.trans hs.1, ?_⟩
      obtain ⟨-, node, -, hset⟩ := gossip_dispatchStart hs.2 hstart
      rw [hset]
      exact hs.2.set _ _
    · exact started_of_dispatchStart hs.2 hs.1 hstart (.inl (by rw [UInt64.ofNat_toNat]))
    · intro slot hslot
      rw [List.eq_of_mem_replicate hslot]
      rfl
  obtain ⟨hslots, hframe⟩ := pumpClientOps_frame hpump
  obtain ⟨hknows, firing, hfiring, hkind, hle⟩ := hstarted
  have hgen : e.started.core.timerGen = core.timerGen := by
    rw [hframe]
    rfl
  refine ⟨hslots ▸ hknows, firing, ?_, hgen ▸ hkind, hle⟩
  exact pumpClientOps_core (P := fun core ↦ firing ∈ core.queue.toList)
    (fun core fireAt process index _ hcore ↦ PriorityQueue.mem_push.mpr (.inr hcore)) hpump hfiring

/-- The horizon lies ten seconds after every event of the script. -/
theorem Execution.add_le_horizon {N : Node} {codec : Option (ClientCodec N)}
    (e : Execution N data workload codec seed)
    (hfaults : data.faults = some ⟨.scripted script, mode⟩) {entry : ScriptedEvent}
    (h : entry ∈ script) :
    entry.fireAt.nanos + (Duration.fromSecs 10).nanos ≤ e.final.core.horizon.nanos := by
  have hhorizon := e.queueOrdered.horizon_eq
  simp only [runHorizon, except_bind_eq_ok] at hhorizon
  obtain ⟨horizon, hadd, hhorizon⟩ := hhorizon
  rw [← except_pure_eq_ok.mp hhorizon]
  refine le_trans ?_ (Duration.le_iff.mp (le_max_left _ _))
  rw [nanos_of_addDuration hadd]
  exact Nat.add_le_add_right (Duration.le_iff.mp (le_latestFault hfaults h)) _

/-- A scripted plan runs on the network that it names. -/
theorem prepareCore_model {N : Node} {prepared : SchedCore N}
    (hfaults : data.faults = some ⟨.scripted script, mode⟩)
    (h : prepareCore N data seed = .ok prepared) :
    prepared.model = data.network.getD .orderedReliable := by
  simp only [prepareCore, except_bind_eq_ok] at h
  obtain ⟨horizon, -, ⟨model, core⟩, hlower, hprepared⟩ := h
  rw [hfaults] at hlower
  obtain ⟨rfl, -⟩ := Prod.mk.inj (Except.ok.inj hlower)
  exact (congrArg SchedCore.model (except_pure_eq_ok.mp hprepared)).symm

/-- The invariant holds when the loop starts. -/
theorem gossiping_started (e : Execution gossipNode data workload codec seed)
    (hfaults : data.faults = some ⟨.scripted script, mode⟩) (hscript : HealsAt script healAt) :
    Gossiping (nodeCount data) e.prepared.model healAt e.started := by
  obtain ⟨core, nodes, hnodes, hpump⟩ := startRun_eq_ok.mp e.start_eq
  have hcluster := sameCluster_started e.start_eq
  have hprepared : e.prepared.crashed = [] ∧ e.prepared.events = [] :=
    prepared_core (P := fun core ↦ core.crashed = [] ∧ core.events = []) (fun _ _ _ h ↦ h)
      (fun _ _ h ↦ h) e.prepare_eq fun _ _ ↦ ⟨rfl, rfl⟩
  have hevents : e.started.core.events = [] := hcluster.events_eq.trans hprepared.2
  have hqueue := prepared_script e.prepare_eq hfaults
  refine ⟨e.networked _ List.mem_cons_self, hcluster.crashed_eq.trans hprepared.1, ?_,
    occupied_started e.start_eq, fun event hevent action hkind ↦ ?_,
    fun i hi ↦ (gossip_started e hi).1,
    fun i hi ↦ (gossip_started e hi).2.mono (Nat.le_add_left _ _), ?_, fun _ ↦ ?_,
    fun hsome ↦ absurd hevents hsome⟩
  · have hcount : core.nodeCount = nodeCount data :=
      (queueProperty_nodeCount _).coreSteps (startNodes_steps hnodes) e.prepared_nodeCount
    rw [(pumpClientOps_frame hpump).2]
    exact hcount
  · have hfault : event ∈ faultEvents e.started.core.queue.toList :=
      mem_faultEvents.mpr ⟨hevent, action, hkind⟩
    rw [e.started_faultEvents, hqueue] at hfault
    obtain ⟨entry, hentry, rfl⟩ := List.mem_map.mp hfault
    have hin : entry.1 ∈ inOrder script := map_sortedEntries script ▸ List.mem_map_of_mem hentry
    obtain rfl := EventKind.fault.inj hkind
    rcases hscript.only entry.1 (List.mem_mergeSort.mp hin) with ⟨hheal, hle⟩ | ⟨⟨a, b, hcut⟩, hlt⟩
    · exact .inl ⟨by rw [hheal]; rfl, hle⟩
    · exact .inr ⟨⟨a, b, by rw [hcut]; rfl⟩, hlt⟩
  · have hframes : e.started.frames = [(core.now, nodes.filterMap id)] :=
      frames_pumpClientOps hpump
    have hnow : e.started.core.now = core.now := by
      rw [(pumpClientOps_frame hpump).2]
      rfl
    refine ⟨(core.now, nodes.filterMap id), by rw [hframes]; exact List.mem_singleton_self _, ?_,
      hnow.ge, fun hsome ↦ absurd hevents hsome⟩
    rw [(pumpClientOps_frame hpump).1]
    rfl
  · have hin : (⟨healAt, .healAll⟩ : ScriptedEvent) ∈ (sortedEntries script).map (·.1) := by
      rw [map_sortedEntries]
      exact List.mem_mergeSort.mpr hscript.heals
    obtain ⟨entry, hentry, hheal⟩ := List.mem_map.mp hin
    have hfault : scriptedEvent gossipNode entry ∈ faultEvents e.started.core.queue.toList := by
      rw [e.started_faultEvents, hqueue]
      exact List.mem_map_of_mem hentry
    exact ⟨_, (mem_faultEvents.mp hfault).1, by rw [scriptedEvent, hheal]; rfl,
      by rw [scriptedEvent, hheal]⟩

/-- The invariant holds in every state of an execution. -/
theorem gossiping (e : Execution gossipNode data workload codec seed)
    (hfaults : data.faults = some ⟨.scripted script, mode⟩) (hscript : HealsAt script healAt)
    (hloss : e.prepared.model.loss.value.le .zero = true) :
    ∀ state ∈ e.states, Gossiping (nodeCount data) e.prepared.model healAt state :=
  e.loop.invariant (fun _ _ _ hs hturn ↦ hs.turn hloss hturn) (gossiping_started e hfaults hscript)

/-- The heal has been taken in a state that has nothing queued up to its time. -/
theorem Gossiping.healed_of_later {count : UInt64} {model : NetworkModel}
    {state : RunState gossipNode} (h : Gossiping count model healAt state)
    (hlater : ∀ event ∈ state.core.queue.toList, healAt < event.fireAt) :
    Healed count model healAt state := by
  refine h.healed fun hnone ↦ ?_
  obtain ⟨event, hevent, -, hat⟩ := h.pending hnone
  exact absurd (hlater event hevent) (hat ▸ lt_irrefl _)

/-- After the longest interval and the longest delay from the heal, some frame shows every node with
every value. -/
theorem exists_converged_frame (e : Execution gossipNode data workload codec seed)
    (hfaults : data.faults = some ⟨.scripted script, mode⟩) (hscript : HealsAt script healAt)
    (hloss : e.prepared.model.loss.value.le .zero = true)
    (hbelow : healAt.nanos + longestInterval + maxDelay e.prepared.model <
      e.final.core.horizon.nanos) :
    ∃ frame ∈ e.result.worldTrace.frames, healAt ≤ frame.1 ∧
      frame.1.nanos ≤ healAt.nanos + longestInterval + maxDelay e.prepared.model ∧
      ∀ node ∈ frame.2, ∀ i < (nodeCount data).toNat, 100 + .ofNat i ∈ GossipState.known node := by
  obtain ⟨t, ht⟩ : ∃ t : Duration,
      t.nanos = healAt.nanos + longestInterval + maxDelay e.prepared.model :=
    ⟨⟨_, hbelow.le.trans e.final.core.horizon.le_max⟩, rfl⟩
  obtain ⟨state, hstate, hnow, hlater⟩ := e.loop.exists_instant (t := t)
    (by rw [now_started e.prepare_eq e.start_eq]; exact Duration.zero_le t)
    (by rw [← e.horizon_eq, Duration.lt_iff, ht]; exact hbelow)
  have hinv := gossiping e hfaults hscript hloss state hstate
  have hheal : healAt ≤ t := by
    rw [Duration.le_iff, ht, Nat.add_assoc]
    exact Nat.le_add_right _ _
  have hhealed := hinv.healed_of_later fun event hevent ↦ hheal.trans_lt (hlater event hevent)
  have hnone {event : Scheduled gossipNode} (hevent : event ∈ state.core.queue.toList)
      (hdue : event.fireAt.nanos ≤ t.nanos) : False :=
    absurd (hlater event hevent) (not_lt.mpr hdue)
  have hknows (i j : NodeId) (hi : i.id < nodeCount data) (hj : j.id < nodeCount data) :
      Knows state.nodes j (100 + i.id) := by
    rcases hhealed.spreads i j hi hj with hknows | ⟨copy, hcopy, _, _, _, _, hle⟩ |
      ⟨_, firing, hfiring, _, hle⟩
    · exact hknows
    · exact (hnone hcopy (ht ▸ hle)).elim
    · exact (hnone hfiring (hle.trans (ht ▸ Nat.le_add_right _ _))).elim
  obtain ⟨frame, hframe, hnodes, htime, hafter⟩ := hinv.shows
  refine ⟨frame, (e.loop.frames_prefix state hstate).subset hframe, hafter fun hevents ↦ ?_,
    ht ▸ Duration.le_iff.mp (htime.trans hnow), fun node hnode i hi ↦ ?_⟩
  · have hanchored := hhealed.anchored
    rw [hevents] at hanchored
    cases hanchored
  · rw [hnodes] at hnode
    obtain ⟨slot, hslot, rfl⟩ := List.mem_filterMap.mp hnode
    obtain ⟨j, hj, hget⟩ := List.getElem_of_mem hslot
    have hlt {n : ℕ} (hn : n < (nodeCount data).toNat) : UInt64.ofNat n < nodeCount data := by
      rw [UInt64.lt_iff_toNat_lt, UInt64.toNat_ofNat_of_lt' (hn.trans (nodeCount data).toNat_lt)]
      exact hn
    have hlength := e.length_nodes state hstate
    rw [e.prepared_nodeCount] at hlength
    have hcount : j < (nodeCount data).toNat := hlength ▸ hj
    obtain ⟨node', hslot', hv⟩ := hknows ⟨.ofNat i⟩ ⟨.ofNat j⟩ (hlt hi) (hlt hcount)
    rw [UInt64.toNat_ofNat_of_lt' (hcount.trans (nodeCount data).toNat_lt)] at hslot'
    have hshown := List.getElem?_eq_some_iff.mpr ⟨hj, hget⟩
    obtain rfl := Option.some.inj (Option.some.inj (hshown.symm.trans hslot'))
    exact hv

/-- The first run event of the execution is the heal. -/
theorem head_events (e : Execution gossipNode data workload codec seed)
    (hfaults : data.faults = some ⟨.scripted script, mode⟩) (hscript : HealsAt script healAt)
    (hloss : e.prepared.model.loss.value.le .zero = true) (hbelow : healAt < e.final.core.horizon) :
    e.result.events.head? = some (.networkHealed healAt) := by
  obtain ⟨hstops, -⟩ := e.loop.stops
  have hinv := gossiping e hfaults hscript hloss _ (List.mem_of_getElem? e.states_last)
  have hhealed := hinv.healed_of_later fun event hevent ↦
    (hstops.keeps.1 ▸ hbelow).trans_le (hstops.horizon_le.1 event hevent)
  have hresult : e.result.events = (lastState e.started e.steps).core.events := by
    refine (events_closeAll _ _).trans ?_
    rw [hstops.core_eq]
  rw [hresult]
  exact hhealed.anchored

/-- Within the longest interval and the longest delay from the heal every node holds every value:
the liveness property of the example is valid at every deadline that is not shorter. -/
theorem fullConvergence_isValid {fuel : ℕ} {nodeDef : Option NodeDef} {run : TypedRun gossipNode}
    (hfaults : data.faults = some ⟨.scripted script, mode⟩) (hscript : HealsAt script healAt)
    (hloss : (data.network.getD .orderedReliable).loss.value.le .zero = true)
    (hdelay : longestInterval + maxDelay (data.network.getD .orderedReliable) <
      (Duration.fromSecs 10).nanos)
    {deadline : Duration}
    (hdeadline : longestInterval + maxDelay (data.network.getD .orderedReliable) ≤ deadline.nanos)
    (hfits : Fits healAt deadline)
    (h : runDeterministic fuel data nodeDef workload codec seed = .ok (.ok run)) :
    ∃ verdict, evaluateOne (fullConvergence (nodeCount data).toNat deadline) run.worldTrace
      run.events = .ok verdict ∧ verdict.isValid = true := by
  have hpublished {frame : Duration × List GossipState} (hframe : frame ∈ run.worldTrace.frames) :=
    published_of_mem_frames h hframe
  obtain ⟨e, rfl⟩ := exists_execution h
  rw [← prepareCore_model hfaults e.prepare_eq] at hloss hdelay hdeadline
  have hbelow : healAt.nanos + (Duration.fromSecs 10).nanos ≤ e.final.core.horizon.nanos :=
    e.add_le_horizon hfaults hscript.heals
  obtain ⟨frame, hframe, hafter, htime, hknown⟩ :=
    exists_converged_frame e hfaults hscript hloss (by omega)
  have hanchor : anchorTime (some .networkHealed) e.result.events = healAt := by
    have hhead := head_events e hfaults hscript hloss (by rw [Duration.lt_iff]; omega)
    cases hevents : e.result.events with
    | nil =>
      rw [hevents] at hhead
      cases hhead
    | cons first rest =>
      rw [hevents] at hhead
      obtain rfl := Option.some.inj hhead
      rfl
  cases hverdict : evaluateOne (fullConvergence (nodeCount data).toNat deadline)
      e.result.worldTrace e.result.events with
  | error halt =>
    obtain rfl := evaluateOne_error hverdict
    obtain ⟨other, hkind, hnot⟩ := evaluateOne_eq_error_iff.mp hverdict
    obtain rfl := PropertyKind.eventuallyWithin.inj hkind
    rw [show (fullConvergence (nodeCount data).toNat deadline).after = some .networkHealed from rfl,
      hanchor] at hnot
    exact absurd hfits hnot
  | ok verdict =>
    refine ⟨verdict, rfl, (evaluateOne_within_iff rfl hverdict).mpr ⟨frame, hframe, ?_⟩⟩
    rw [show (fullConvergence (nodeCount data).toNat deadline).after = some .networkHealed from rfl,
      hanchor]
    refine ⟨hafter, htime.trans (by omega), List.all_eq_true.mpr fun node hnode ↦ ?_⟩
    refine decide_eq_true (OrderedSet.ext_mem fun v ↦ ⟨hpublished hframe node hnode v, fun hv ↦ ?_⟩)
    obtain ⟨i, hi, rfl⟩ := mem_publishedValues.mp hv
    exact hknown node hnode i hi

/-- A cluster of gossip nodes converges: the run returns a history, and within the longest interval
and the longest delay from the heal every node holds every value. Assumes: a script that partitions
the nodes and then heals them, a network that loses nothing and delivers within the ten seconds that
a run has left, and a clock that leaves room for the timers and the delays. -/
theorem gossip_converges {nodeDef : Option NodeDef} (hnode : nodeDef ≠ some .spawnEach)
    (hfaults : data.faults = some ⟨.scripted script, mode⟩) (hscript : HealsAt script healAt)
    (hloss : (data.network.getD .orderedReliable).loss.value.le .zero = true)
    (hdelay : longestInterval + maxDelay (data.network.getD .orderedReliable) <
      (Duration.fromSecs 10).nanos)
    (hroom : Fits (latestFault data.faults) (.fromSecs 20)) {deadline : Duration}
    (hdeadline : longestInterval + maxDelay (data.network.getD .orderedReliable) ≤ deadline.nanos)
    (hfits : Fits healAt deadline) :
    ∃ fuel run, runDeterministic fuel data nodeDef workload codec seed = .ok (.ok run) ∧
      ∃ verdict, evaluateOne (fullConvergence (nodeCount data).toNat deadline) run.worldTrace
        run.events = .ok verdict ∧ verdict.isValid = true := by
  have hhorizon : horizonFaults data = data.faults := by rw [horizonFaults, hfaults]; rfl
  have hrestarts : RestartsInCluster data := by
    intro other hother fireAt node hrestart
    rw [hfaults] at hother
    obtain rfl := Option.some.inj hother
    rcases hscript.only _ hrestart with ⟨haction, -⟩ | ⟨⟨a, b, haction⟩, -⟩ <;> cases haction
  have hdelays (model : NetworkModel) (hmodel : model.delayMs ∈ delayRanges data) :
      maxDelay model = maxDelay (data.network.getD .orderedReliable) := by
    rw [delayRanges, hfaults] at hmodel
    rw [maxDelay, List.mem_singleton.mp hmodel]
    rfl
  have hsum : (Duration.fromSecs 20).nanos =
      (Duration.fromSecs 10).nanos + (Duration.fromSecs 10).nanos := by decide +kernel
  have hrun : (latestFault data.faults).nanos + (Duration.fromSecs 10).nanos +
      (Duration.fromSecs 10).nanos ≤ maxNanos := by
    rw [Fits, hsum, ← Nat.add_assoc] at hroom
    exact hroom
  obtain ⟨fuel, run, hrun⟩ :
      ∃ fuel run, runDeterministic fuel data nodeDef workload codec seed = .ok (.ok run) := by
    refine (runnable_gossip hrestarts ?_ fun model hmodel ↦ ?_).returns hnode
    · rw [hhorizon]
      exact (Nat.add_le_add_left (by decide +kernel) _).trans hrun
    · rw [hhorizon, hdelays model hmodel]
      exact (Nat.add_le_add_left ((Nat.le_add_left _ _).trans hdelay.le) _).trans hrun
  exact ⟨fuel, run, hrun, fullConvergence_isValid hfaults hscript hloss hdelay hdeadline hfits hrun⟩

/-- The script of the example cuts the nodes before it heals them. -/
theorem healsAt_gossipScript : HealsAt gossipScript (.fromSecs 3) where
  heals := by decide +kernel
  only := by
    intro entry hentry
    rcases List.mem_cons.mp hentry with rfl | hentry
    · exact .inr ⟨⟨_, _, rfl⟩, by decide +kernel⟩
    · obtain rfl := List.mem_singleton.mp hentry
      exact .inl ⟨rfl, le_rfl⟩

theorem gossipPlan_converges :
    ∃ (fuel : ℕ) (run : TypedRun gossipNode),
      runDeterministic fuel (gossipPlan 7 gossipScript) (some .stateMachine) none none
        ⟨0xC0FFEE⟩ = .ok (.ok run) ∧
      ∃ verdict, evaluateOne (fullConvergence 7 (.fromMillis 2000)) run.worldTrace run.events =
        .ok verdict ∧ verdict.isValid = true :=
  gossip_converges (by decide) rfl healsAt_gossipScript (by decide +kernel) (by decide +kernel)
    (by decide +kernel) (by decide +kernel) (by decide +kernel)

end Executions

end Propsim.Simulator
