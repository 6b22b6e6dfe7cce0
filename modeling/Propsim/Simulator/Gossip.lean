import Propsim.Foundation.OrderedSet
import Propsim.Simulator.Totality

/-!
# The gossip example

`propsim-sim/tests/worked_example.rs`: every node publishes a value of its own, broadcasts all the
values that it knows from time to time, and merges those that it receives. Whatever the number of
nodes, the network, the faults and the seed, a run returns a history (`runnable_gossip`) and no node
ever reports a value that was not published (`gossip_noFabricatedValues`). That a heal makes the
nodes agree is in `Convergence`.
-/

set_option autoImplicit false
set_option relaxedAutoImplicit false

namespace Propsim.Simulator

open Foundation Interchange Propsim.Core

/-! ### The node -/

/-- The id of a gossip node, from its start on, and the values that it knows. -/
structure GossipState where
  me : Option NodeId
  known : OrderedSet UInt64.toNat
  deriving DecidableEq

/-- The timer of a gossip node. -/
inductive GossipTimer
  | broadcast

/-- A gossip node. A message holds the values that its sender knows. The value of a node does not
wrap around in a cluster that fits into memory. -/
def gossipNode : Node where
  State := GossipState
  Msg := List UInt64
  Timer := GossipTimer
  Op := Unit
  Response := Unit
  default := ⟨none, .empty⟩
  debug _ := "Broadcast"
  onStart state := .me fun me ↦
    .setTimer .broadcast (.fromMillis 50) (.done ⟨some me, state.known.insert (100 + me.id)⟩)
  onMsg state _ msg := .done { state with known := state.known.insertAll msg }
  onTimer state _ := .broadcast state.known.toList
    (.durationMs 40 60 fun jitter ↦ .setTimer .broadcast jitter (.done state))
  onClientOp state _ _ := .done (state, .pending)

/-- The values of a number of nodes. -/
def publishedValues (n : ℕ) : OrderedSet UInt64.toNat :=
  OrderedSet.empty.insertAll ((List.range n).map fun i ↦ 100 + .ofNat i)

/-- Safety: no node ever reports a value that was never published. -/
def noFabricatedValues (n : ℕ) : Property GossipState where
  name := "no fabricated values"
  kind := .always
  predicate world :=
    (world.nodes.flatMap (·.known.toList)).all fun v ↦ decide (v ∈ publishedValues n)
  after := none

/-- Liveness: within a deadline of the heal, every node holds every published value. -/
def fullConvergence (n : ℕ) (deadline : Duration) : Property GossipState where
  name := "full convergence after heal"
  kind := .eventuallyWithin deadline
  predicate world := world.nodes.all fun node ↦ decide (node.known = publishedValues n)
  after := some .networkHealed

theorem mem_publishedValues {n : ℕ} {v : UInt64} :
    v ∈ publishedValues n ↔ ∃ i < n, v = 100 + .ofNat i := by
  rw [publishedValues, OrderedSet.mem_insertAll fun _ _ h ↦ UInt64.toNat_inj.mp h]
  simp [OrderedSet.notMem_empty, eq_comm]

theorem mem_insertAll_known {known : OrderedSet UInt64.toNat} {values : List UInt64} {v : UInt64} :
    v ∈ known.insertAll values ↔ v ∈ known ∨ v ∈ values :=
  OrderedSet.mem_insertAll fun _ _ h ↦ UInt64.toNat_inj.mp h

theorem mem_insert_known {known : OrderedSet UInt64.toNat} {v w : UInt64} :
    w ∈ known.insert v ↔ w = v ∨ w ∈ known :=
  OrderedSet.mem_insert fun _ _ h ↦ UInt64.toNat_inj.mp h

/-! ### Safety -/

section Safety

variable {codec : Option (ClientCodec gossipNode)} {ops : List FrozenOp} {count : UInt64}

/-- A start publishes the own value, and arms the timer. -/
theorem yields_gossip_onStart {me : NodeId} {peers : List NodeId} {state state' : GossipState}
    {out : List (Emission (List UInt64) GossipTimer Unit)}
    (h : Yields me peers (gossipNode.onStart state) out state') :
    out = [.setTimer .broadcast (.fromMillis 50)] ∧
      state' = ⟨some me, state.known.insert (100 + me.id)⟩ := by
  simpa [gossipNode, and_comm] using h

/-- A timer broadcasts what is known, and is armed again. -/
theorem yields_gossip_onTimer {me : NodeId} {peers : List NodeId} {state state' : GossipState}
    {timer : GossipTimer} {out : List (Emission (List UInt64) GossipTimer Unit)}
    (h : Yields me peers (gossipNode.onTimer state timer) out state') :
    state' = state ∧ ∃ jitter : Duration, 40000000 ≤ jitter.nanos ∧ jitter.nanos ≤ 59000000 ∧
      out = peers.map (.send · state.known.toList) ++ [.setTimer .broadcast jitter] := by
  have hrange : (40 : UInt64) < 60 := by decide
  simp only [gossipNode, yields_broadcast_iff, yields_durationMs_iff hrange, yields_setTimer_iff,
    yields_done_iff] at h
  obtain ⟨_, ⟨z, _, ⟨rfl, rfl⟩, rfl⟩, rfl⟩ := h
  obtain ⟨hlo, hhi⟩ := nanos_durationMs hrange z
  exact ⟨rfl, _, hlo, Nat.le_of_add_le_add_right hhi, rfl⟩

/-- The values that a gossip node takes up. -/
def carried : Envelope gossipNode → List UInt64
  | .message _ msg => msg
  | .timer _ => []

/-- Every value that a node knows or sends was published. -/
theorem gossip_keeps : (asyncProtocol gossipNode codec ops count).Keeps
    (fun _ (state : GossipState) ↦ ∀ v ∈ state.known, v ∈ publishedValues count.toNat)
    (fun item ↦ ∀ v ∈ carried item.2, v ∈ publishedValues count.toNat) where
  init _ v hv := absurd hv (OrderedSet.notMem_empty v)
  act me state state' out hstate hacts := by
    cases hacts with
    | start hme h =>
      obtain ⟨rfl, rfl⟩ := yields_gossip_onStart h
      refine ⟨fun v hv ↦ ?_, List.forall_mem_singleton.mpr (List.forall_mem_nil _)⟩
      rcases mem_insert_known.mp hv with rfl | hv
      · refine mem_publishedValues.mpr ⟨me.id.toNat, UInt64.lt_iff_toNat_lt.mp hme, ?_⟩
        rw [UInt64.ofNat_toNat]
      · exact hstate v hv
    | serve hme hop hdecode htarget h =>
      obtain ⟨rfl, hresult⟩ := yields_done_iff.mp h
      obtain rfl := congrArg Prod.fst hresult
      exact ⟨hstate, by simp⟩
  take me item state state' out hstate hsound htakes := by
    obtain ⟨hme, h⟩ := htakes
    cases item with
    | message sender msg =>
      obtain ⟨rfl, rfl⟩ := yields_done_iff.mp h
      exact ⟨fun v hv ↦ (mem_insertAll_known.mp hv).elim (hstate v) (hsound v), by simp⟩
    | timer timer =>
      obtain ⟨rfl, jitter, -, -, rfl⟩ := yields_gossip_onTimer h
      refine ⟨hstate, fun item hitem ↦ ?_⟩
      obtain ⟨emission, hemission, haddressed⟩ := List.mem_filterMap.mp hitem
      rcases List.mem_append.mp hemission with hsent | harmed
      · obtain ⟨peer, -, rfl⟩ := List.mem_map.mp hsent
        obtain rfl := Option.some.inj haddressed
        exact hstate
      · obtain rfl := List.mem_singleton.mp harmed
        obtain rfl := Option.some.inj haddressed
        exact List.forall_mem_nil _

end Safety

section Executions

variable {data : PlanData} {workload : Option Strategy} {codec : Option (ClientCodec gossipNode)}
  {seed : Seed}

/-- Every value that a node knows in a frame was published. -/
theorem published_of_mem_frames {fuel : ℕ} {nodeDef : Option NodeDef} {run : TypedRun gossipNode}
    (h : runDeterministic fuel data nodeDef workload codec seed = .ok (.ok run))
    {frame : Duration × List GossipState} (hframe : frame ∈ run.worldTrace.frames) :
    ∀ node ∈ frame.2, ∀ v ∈ node.known, v ∈ publishedValues (nodeCount data).toNat := by
  obtain ⟨c, hc, heq⟩ := reachable_of_mem_frames h hframe
  rw [heq]
  intro node hnode
  obtain ⟨i, -, rfl⟩ := List.mem_map.mp hnode
  exact (gossip_keeps.reachable hc).1 _

/-- Every message of a gossip node is answered by none. -/
theorem ranked_gossip : Ranked gossipNode fun _ ↦ 0 where
  onStart me peers node out node' h := by
    obtain ⟨rfl, -⟩ := yields_gossip_onStart h
    exact List.forall_mem_singleton.mpr (Duration.lt_iff.mpr (by decide))
  onMsg me peers node sender msg out node' h := by
    obtain ⟨rfl, -⟩ := yields_done_iff.mp h
    exact List.forall_mem_nil _
  onTimer me peers node timer out node' h := by
    obtain ⟨-, jitter, hjitter, -, rfl⟩ := yields_gossip_onTimer h
    intro e he
    rcases List.mem_append.mp he with he | he
    · obtain ⟨peer, -, rfl⟩ := List.mem_map.mp he
      exact WithTop.coe_lt_top 0
    · obtain rfl := List.mem_singleton.mp he
      exact Duration.lt_iff.mpr (Nat.lt_of_lt_of_le (by decide) hjitter)
  onClientOp me peers node op token out result h := by
    obtain ⟨rfl, -⟩ := yields_done_iff.mp h
    exact List.forall_mem_nil _

/-- A gossip node never sends to a node by name, and arms its timer for less than sixty
milliseconds. -/
theorem keepsTo_gossip {sends : NodeId → Prop} :
    KeepsTo gossipNode sends fun span ↦ span ≤ .fromMillis 60 where
  onStart _ _ _ := ⟨Duration.le_iff.mpr (by decide +kernel), trivial⟩
  onMsg _ _ _ _ _ := trivial
  onTimer me now node timer := by
    have hrange : (40 : UInt64) < 60 := by decide
    have hcallback : gossipNode.onTimer node timer = .broadcast node.known.toList
        (.nextU64 fun z ↦ .setTimer GossipTimer.broadcast (.fromMillis (40 + z % (60 - 40)))
          (.done node)) := congrArg (Effects.broadcast _) (Effects.durationMs_eq hrange _)
    rw [hcallback]
    refine fun z ↦ ⟨Duration.le_iff.mpr ?_, trivial⟩
    exact (Nat.le_add_right _ _).trans (nanos_durationMs hrange z).2
  onClientOp _ _ _ _ _ := trivial

/-- Runs of gossip nodes return. Assumes: scripted restarts of nodes of the cluster only, and a
clock that leaves room for the timers and for the delays of the network after the last fault. -/
theorem runnable_gossip (hrestarts : RestartsInCluster data)
    (htimers : (latestFault (horizonFaults data)).nanos + (Duration.fromSecs 10).nanos +
      (Duration.fromMillis 60).nanos ≤ maxNanos)
    (hdelays : ∀ model : NetworkModel, model.delayMs ∈ delayRanges data →
      (latestFault (horizonFaults data)).nanos + (Duration.fromSecs 10).nanos + maxDelay model ≤
        maxNanos) :
    Runnable gossipNode data (fun _ ↦ 0) (.fromMillis 60) where
  ranked := ranked_gossip
  keeps := keepsTo_gossip
  restarts := hrestarts
  timers := htimers
  pump := (Nat.add_le_add_left (by decide +kernel) _).trans htimers
  delays := hdelays

/-- On every run, whatever the cluster, the network, the faults and the seed, no node reports a
value that was never published. -/
theorem gossip_noFabricatedValues {fuel : ℕ} {nodeDef : Option NodeDef} {run : TypedRun gossipNode}
    (h : runDeterministic fuel data nodeDef workload codec seed = .ok (.ok run)) :
    evaluateOne (noFabricatedValues (nodeCount data).toNat) run.worldTrace run.events =
      .ok .valid := by
  refine always_isValid_of_reachable rfl (fun c hc history now ↦ ?_) h
  refine List.all_eq_true.mpr fun v hv ↦ decide_eq_true ?_
  obtain ⟨node, hnode, hv⟩ := List.mem_flatMap.mp hv
  obtain ⟨i, -, rfl⟩ := List.mem_map.mp hnode
  exact (gossip_keeps.reachable hc).1 _ v hv

end Executions

/-- Seven gossip nodes are cut into two groups at once, and healed after three seconds. -/
def gossipScript : List ScriptedEvent :=
  [⟨.fromMillis 1, .partition [⟨0⟩, ⟨1⟩, ⟨2⟩] [⟨3⟩, ⟨4⟩, ⟨5⟩, ⟨6⟩]⟩, ⟨.fromSecs 3, .healAll⟩]

/-- The gossip plan of the example: a number of nodes on the ordered network, which a script
partitions and heals. -/
def gossipPlan (n : UInt64) (script : List ScriptedEvent) : PlanData :=
  ⟨n, some .orderedReliable, some ⟨.scripted script, .liveness⟩, 1, none⟩

/-- The gossip plan of the example runs. -/
theorem runnable_gossipPlan :
    Runnable gossipNode (gossipPlan 7 gossipScript) (fun _ ↦ 0) (.fromMillis 60) := by
  refine runnable_gossip (fun script hscript fireAt node hrestart ↦ ?_) (by decide +kernel)
    fun model hmodel ↦ ?_
  · obtain rfl := Option.some.inj hscript
    simp [gossipScript] at hrestart
  · rw [maxDelay, List.mem_singleton.mp hmodel]
    decide +kernel

theorem gossipPlan_noFabricatedValues :
    ∃ (fuel : ℕ) (run : TypedRun gossipNode),
      runDeterministic fuel (gossipPlan 7 gossipScript) (some .stateMachine) none none
        ⟨0xC0FFEE⟩ = .ok (.ok run) ∧
      evaluateOne (noFabricatedValues 7) run.worldTrace run.events = .ok .valid := by
  obtain ⟨fuel, run, hrun⟩ : ∃ fuel run, runDeterministic fuel (gossipPlan 7 gossipScript)
      (some .stateMachine) none (none : Option (ClientCodec gossipNode)) ⟨0xC0FFEE⟩ =
        .ok (.ok run) := runnable_gossipPlan.returns (by decide)
  have hcount : (nodeCount (gossipPlan 7 gossipScript)).toNat = 7 := by decide
  exact ⟨fuel, run, hrun, hcount ▸ gossip_noFabricatedValues hrun⟩

end Propsim.Simulator
