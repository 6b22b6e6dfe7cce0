import Propsim.Core.Behaviour
import Propsim.Foundation.MessagePassing
import Propsim.Simulator.FaultEvents
import Propsim.Simulator.ModelNode
import Propsim.Simulator.Moments

/-!
# Simulated runs are asynchronous runs

The nodes of a plan are the parties of an asynchronous protocol (`asyncProtocol`): they start at any
time, serve the operations of the stream that are routed to them, and take up messages and timers
that were sent or set before. The clock, the generator, the queue, the network model and the faults
do not occur in it. Every run of the simulator is a run of this protocol, frame by frame
(`runDeterministic_traces`), so whatever holds of all configurations that the protocol can reach
holds in every world that a property is evaluated on, at every seed, under every network and fault
schedule (`always_isValid_of_reachable`).
-/

set_option autoImplicit false
set_option relaxedAutoImplicit false

namespace Propsim.Simulator

open Foundation Interchange Propsim.Core

variable {N : Node} {codec : Option (ClientCodec N)} {ops : List FrozenOp}

/-! ### The protocol of a node -/

/-- What a node can take up: a message with its sender, or a timer of its own. -/
inductive Envelope (N : Node)
  | message (sender : NodeId) (msg : N.Msg)
  | timer (timer : N.Timer)

/-- The callback that takes something up. -/
def Envelope.callback : Envelope N → N.State → Effects N.Msg N.Timer N.Response N.State
  | .message sender msg, state => N.onMsg state sender msg
  | .timer t, state => N.onTimer state t

/-- What an emission of node `me` puts out, and for whom. -/
def addressed (me : NodeId) : Emission N.Msg N.Timer N.Response → Option (NodeId × Envelope N)
  | .send recipient msg => some (recipient, .message me msg)
  | .setTimer timer _ => some (me, .timer timer)
  | .completeOp _ _ => none

/-- The other ids of a cluster. -/
def peersOf (count : UInt64) (me : NodeId) : List NodeId :=
  ((List.range count.toNat).map fun n ↦ ⟨.ofNat n⟩).filter (· ≠ me)

/-- What a node of a cluster does on its own: it starts, or it serves an operation of the stream
that is routed to it. -/
inductive Acts (codec : Option (ClientCodec N)) (ops : List FrozenOp) (count : UInt64) (me : NodeId)
    (state : N.State) : N.State → List (NodeId × Envelope N) → Prop
  | start {state' : N.State} {out : List (Emission N.Msg N.Timer N.Response)}
      (hme : me.id < count) (h : Yields me (peersOf count me) (N.onStart state) out state') :
      Acts codec ops count me state state' (out.filterMap (addressed me))
  | serve {op : FrozenOp} {f : Function} {typedOp : N.Op} {token : OpToken} {state' : N.State}
      {outcome : OpOutcome N.Response} {out : List (Emission N.Msg N.Timer N.Response)}
      (hme : me.id < count) (hop : op ∈ ops)
      (hdecode : (codec.bind fun c ↦ c.decode op.op) = some (f, typedOp))
      (htarget : target op op.process count.toNat = me.id.toNat)
      (h : Yields me (peersOf count me) (N.onClientOp state typedOp token) out (state', outcome)) :
      Acts codec ops count me state state' (out.filterMap (addressed me))

/-- What a node of a cluster does when it takes something up. -/
inductive Takes (count : UInt64) (me : NodeId) (envelope : Envelope N) (state : N.State) :
    N.State → List (NodeId × Envelope N) → Prop
  | intro {state' : N.State} {out : List (Emission N.Msg N.Timer N.Response)}
      (hme : me.id < count)
      (h : Yields me (peersOf count me) (envelope.callback state) out state') :
      Takes count me envelope state state' (out.filterMap (addressed me))

/-- The protocol of the nodes of a cluster that serve a stream of operations. -/
def asyncProtocol (N : Node) (codec : Option (ClientCodec N)) (ops : List FrozenOp)
    (count : UInt64) : Protocol NodeId N.State (Envelope N) where
  init := N.default
  acts me state state' out := Acts codec ops count me state state' out
  takes me envelope state state' out := Takes count me envelope state state' out

/-- The states of the nodes of a cluster, in order. -/
def clusterStates (count : UInt64) (c : Configuration NodeId N.State (Envelope N)) :
    List N.State :=
  (List.range count.toNat).map fun i ↦ c.states ⟨.ofNat i⟩

/-! ### Callbacks in the harness -/

theorem nodeCount_scheduleDelivery {core core' : SchedCore N} {sender recipient : NodeId}
    {msg : N.Msg} (h : core.scheduleDelivery sender recipient msg = .ok core') :
    core'.nodeCount = core.nodeCount := by
  rw [scheduleDelivery_frame h]

theorem nodeCount_armTimer {core core' : SchedCore N} {node : NodeId} {timer : N.Timer}
    {after : Duration} (h : core.armTimer node timer after = .ok core') :
    core'.nodeCount = core.nodeCount := by
  obtain ⟨fireAt, -, rfl⟩ := armTimer_eq_ok h
  rfl

theorem sameQueue_completeOp (core : SchedCore N) (token : OpToken)
    (completion : Completion N.Response) :
    SameQueue core (completeOp codec core token completion) := by
  cases completion with
  | ok response => exact sameQueue_closeOp _ _ _ _
  | fail => exact sameQueue_closeOp _ _ _ _
  | info => exact sameQueue_closeOp _ _ _ _

/-- What a callback does to the core, by the emissions that it yields: a relation of what was
emitted so far and the core that each effect extends holds of all emissions and the core in the end.
A broadcast sends to one peer after the other. -/
theorem run_yields {me : NodeId}
    {R : List (Emission N.Msg N.Timer N.Response) → SchedCore N → Prop}
    (hsend : ∀ recipient msg out core core', R out core →
      core.scheduleDelivery me recipient msg = .ok core' → R (out ++ [.send recipient msg]) core')
    (hsetTimer : ∀ timer after out core core', R out core →
      core.armTimer me timer after = .ok core' → R (out ++ [.setTimer timer after]) core')
    (hcancelTimer : ∀ timer out core, R out core → R out (core.cancelTimer me timer))
    (hnextU64 : ∀ out core, R out core → R out core.nextU64.2)
    (hcompleteOp : ∀ token completion out core, R out core →
      R (out ++ [.completeOp token completion]) (completeOp codec core token completion))
    {α : Type} {effects : Effects N.Msg N.Timer N.Response α} {core core' : SchedCore N} {a : α}
    (hcore : R [] core) (h : effects.run (harnessCtx codec me) core = .ok (a, core')) :
    ∃ out, Yields me (peersOf core.nodeCount me) effects out a ∧ R out core' := by
  have hpeers (msg : N.Msg) (peers : List NodeId) :
      ∀ out (c c' : SchedCore N), c.nodeCount = core.nodeCount ∧ R out c →
        peers.foldlM (fun c peer ↦ c.scheduleDelivery me peer msg) c = .ok c' →
          c'.nodeCount = core.nodeCount ∧ R (out ++ peers.map (.send · msg)) c' := by
    induction peers with
    | nil =>
      intro out c c' hc hfold
      obtain rfl := except_pure_eq_ok.mp hfold
      rwa [List.map_nil, List.append_nil]
    | cons peer rest ih =>
      intro out c c' hc hfold
      rw [List.foldlM_cons, except_bind_eq_ok] at hfold
      obtain ⟨mid, hmid, hrest⟩ := hfold
      have hnext := ih _ mid c' ⟨(nodeCount_scheduleDelivery hmid).trans hc.1,
        hsend _ _ _ _ _ hc.2 hmid⟩ hrest
      rwa [List.append_assoc] at hnext
  have hemits : ∃ out, Yields me (peersOf core.nodeCount me) effects out a ∧
      core'.nodeCount = core.nodeCount ∧ R out core' := by
    refine Effects.run_yields (R := fun out c ↦ c.nodeCount = core.nodeCount ∧ R out c)
      (fun recipient msg out c c' hc hmid ↦
        ⟨(nodeCount_scheduleDelivery hmid).trans hc.1, hsend _ _ _ _ _ hc.2 hmid⟩)
      (fun msg out c c' hc hfold ↦ hpeers msg _ out c c' hc ?_)
      (fun timer after out c c' hc hset ↦
        ⟨(nodeCount_armTimer hset).trans hc.1, hsetTimer _ _ _ _ _ hc.2 hset⟩)
      (fun timer out c hc ↦ ⟨hc.1, hcancelTimer _ _ _ hc.2⟩)
      (fun out c hc ↦ ⟨hc.1, hnextU64 _ _ hc.2⟩)
      (fun token completion out c hc ↦
        ⟨(sameQueue_completeOp c token completion).nodeCount_eq.trans hc.1,
          hcompleteOp _ _ _ _ hc.2⟩) ⟨rfl, hcore⟩ h
    rw [← hc.1]
    exact hfold
  obtain ⟨out, hyields, -, hout⟩ := hemits
  exact ⟨out, hyields, hout⟩

/-! ### The simulation relation -/

/-- What a queued event hands to a node, and to which. -/
def EventKind.envelope : EventKind N → Option (NodeId × Envelope N)
  | .deliver sender recipient msg => some (recipient, .message sender msg)
  | .timer node t _ => some (node, .timer t)
  | .clientOp _ _ => none
  | .fault _ => none

/-- Everything that the queue holds for the nodes is in a pool. -/
structure Pooled (count : UInt64) (pool : Set (NodeId × Envelope N)) (core : SchedCore N) :
    Prop where
  nodeCount_eq : core.nodeCount = count
  queued : ∀ event ∈ core.queue.toList, ∀ item ∈ event.kind.envelope, item ∈ pool

/-- A configuration has the node states of a run, and all that is queued for the nodes. -/
structure Simulates (count : UInt64) (c : Configuration NodeId N.State (Envelope N))
    (core : SchedCore N) (nodes : List (Option N.State)) : Prop where
  pooled : Pooled count c.pool core
  length : nodes.length = count.toNat
  slots : ∀ id : NodeId, id.id < count → nodes[id.id.toNat]? = some (some (c.states id))

section Core

variable {count : UInt64} {pool : Set (NodeId × Envelope N)} {core core' : SchedCore N}

theorem Pooled.congr (h : Pooled count pool core) (hsame : SameQueue core core') :
    Pooled count pool core' :=
  ⟨hsame.nodeCount_eq.trans h.nodeCount_eq, hsame.queue_eq ▸ h.queued⟩

theorem Pooled.mono {pool' : Set (NodeId × Envelope N)} (h : Pooled count pool core)
    (hsub : pool ⊆ pool') : Pooled count pool' core :=
  ⟨h.nodeCount_eq, fun event hevent item hitem ↦ hsub (h.queued event hevent item hitem)⟩

theorem Pooled.enqueue (h : Pooled count pool core) (fireAt : Duration) {kind : EventKind N}
    (hkind : ∀ item ∈ kind.envelope, item ∈ pool) :
    Pooled count pool (core.enqueue fireAt kind) := by
  refine ⟨h.nodeCount_eq, fun event hevent ↦ ?_⟩
  rcases PriorityQueue.mem_push.mp hevent with rfl | hevent
  · exact hkind
  · exact h.queued event hevent

/-- Taking the head of the queue. -/
theorem Pooled.take (h : Pooled count pool core) {event : Scheduled N}
    {queue : PriorityQueue Scheduled.key} (hpop : core.queue.pop = some (event, queue)) :
    (∀ item ∈ event.kind.envelope, item ∈ pool) ∧
      Pooled count pool { core with queue := queue, now := event.fireAt } :=
  ⟨h.queued event (PriorityQueue.mem_of_pop hpop), h.nodeCount_eq,
    fun b hb ↦ h.queued b (PriorityQueue.mem_of_mem_pop hpop hb)⟩

/-- A message that is scheduled is queued for its recipient only. -/
theorem Pooled.scheduleDelivery (h : Pooled count pool core) {sender recipient : NodeId}
    {msg : N.Msg} (hsend : core.scheduleDelivery sender recipient msg = .ok core')
    (hitem : (recipient, .message sender msg) ∈ pool) : Pooled count pool core' := by
  have hspec := delivery core sender recipient msg
  rw [hsend] at hspec
  generalize hresult : (Except.ok core' : Except Halt (SchedCore N)) = result at hspec
  have hkind : ∀ item ∈ EventKind.envelope (.deliver sender recipient msg), item ∈ pool := by
    rintro item ⟨⟩
    exact hitem
  cases hspec with
  | cut =>
    obtain rfl := Except.ok.inj hresult
    exact h
  | lost =>
    obtain rfl := Except.ok.inj hresult
    exact h.congr ⟨rfl, rfl, rfl, rfl, rfl⟩
  | overflow => cases hresult
  | @sent sampled =>
    obtain rfl := Except.ok.inj hresult
    have hdrawn : Pooled count pool
        (core.drawn sender recipient (core.arrival sender recipient sampled)) :=
      h.congr ⟨rfl, rfl, rfl, rfl, rfl⟩
    unfold SchedCore.sent
    split_ifs
    · exact (hdrawn.enqueue _ hkind).enqueue _ hkind
    · exact hdrawn.enqueue _ hkind

/-- What a callback leaves in the queue is what was there and what it emitted. -/
theorem Pooled.run {me : NodeId} {α : Type} {effects : Effects N.Msg N.Timer N.Response α} {a : α}
    (h : Pooled count pool core)
    (hrun : effects.run (harnessCtx codec me) core = .ok (a, core')) :
    ∃ out, Yields me (peersOf count me) effects out a ∧
      Pooled count (pool ∪ {item | item ∈ out.filterMap (addressed me)}) core' := by
  have hemit {out : List (Emission N.Msg N.Timer N.Response)} (more) :
      pool ∪ {item | item ∈ out.filterMap (addressed me)} ⊆
        pool ∪ {item | item ∈ (out ++ more).filterMap (addressed me)} := by
    refine Set.union_subset_union_right _ fun item hitem ↦ ?_
    rw [Set.mem_ofPred_eq, List.filterMap_append]
    exact List.mem_append_left _ hitem
  obtain rfl := h.nodeCount_eq
  refine run_yields
    (R := fun out s ↦ Pooled core.nodeCount
      (pool ∪ {item | item ∈ out.filterMap (addressed me)}) s)
    (fun recipient msg out s s' hs hsend ↦ ?_) (fun timer after out s s' hs hset ↦ ?_)
    (fun timer out s hs ↦ hs.congr ⟨rfl, rfl, rfl, rfl, rfl⟩)
    (fun out s hs ↦ hs.congr ⟨rfl, rfl, rfl, rfl, rfl⟩)
    (fun token completion out s hs ↦ (hs.mono (hemit _)).congr (sameQueue_completeOp _ _ _))
    (h.mono Set.subset_union_left) hrun
  · refine (hs.mono (hemit [.send recipient msg])).scheduleDelivery hsend ?_
    exact .inr (by simp [addressed])
  · obtain ⟨fireAt, -, rfl⟩ := armTimer_eq_ok hset
    have hcancel : Pooled core.nodeCount _ (s.cancelTimer me timer) :=
      (hs.mono (hemit [.setTimer timer after])).congr ⟨rfl, rfl, rfl, rfl, rfl⟩
    refine hcancel.enqueue fireAt ?_
    rintro item ⟨⟩
    exact .inr (by simp [addressed])

end Core

/-! ### The moves of a run -/

section Moves

variable {count : UInt64} {c : Configuration NodeId N.State (Envelope N)} {core core' : SchedCore N}
  {nodes nodes' : List (Option N.State)}

/-- A slot of a simulated run holds the state of a node of the cluster. -/
theorem Simulates.of_slot (h : Simulates count c core nodes) {me : NodeId} {slot : Option N.State}
    (hslot : nodes[me.id.toNat]? = some slot) : me.id < count ∧ slot = some (c.states me) := by
  have hlt := (List.getElem?_eq_some_iff.mp hslot).1
  have hme : me.id < count := UInt64.lt_iff_toNat_lt.mpr (h.length ▸ hlt)
  exact ⟨hme, Option.some.inj (hslot.symm.trans (h.slots me hme))⟩

/-- The frame of a simulated run. -/
theorem Simulates.filterMap_nodes (h : Simulates count c core nodes) :
    nodes.filterMap id = clusterStates count c := by
  have hnodes : nodes = (clusterStates count c).map some := by
    refine List.ext_getElem? fun i ↦ ?_
    rw [clusterStates, List.map_map, List.getElem?_map]
    by_cases hi : i < count.toNat
    · have hofNat : (UInt64.ofNat i).toNat = i :=
        UInt64.toNat_ofNat_of_lt' (hi.trans count.toNat_lt)
      have hslot := h.slots ⟨.ofNat i⟩ (UInt64.lt_iff_toNat_lt.mpr (hofNat.trans_lt hi))
      rw [List.getElem?_range hi]
      rwa [hofNat] at hslot
    · have hge := Nat.le_of_not_lt hi
      rw [List.getElem?_eq_none_iff.mpr (h.length ▸ hge),
        List.getElem?_eq_none_iff.mpr (List.length_range ▸ hge), Option.map_none]
  rw [hnodes, List.filterMap_map]
  exact List.filterMap_some

/-- A node moves, and what it emits is queued. -/
theorem Simulates.move (h : Simulates count c core nodes) {me : NodeId} (hme : me.id < count)
    (state : N.State) {out : List (NodeId × Envelope N)}
    (hpooled : Pooled count (c.pool ∪ {item | item ∈ out}) core') :
    Simulates count (c.move me state out) core' (nodes.set me.id.toNat (some state)) := by
  refine ⟨hpooled, List.length_set.trans h.length, fun id hid ↦ ?_⟩
  by_cases heq : id = me
  · subst heq
    have hlt : id.id.toNat < nodes.length := h.length ▸ UInt64.lt_iff_toNat_lt.mp hid
    rw [List.getElem?_set_self hlt, Configuration.states_move_self]
  · have hne : me.id.toNat ≠ id.id.toNat := fun h ↦ heq (NodeId.eq_of_toNat_eq h.symm)
    rw [List.getElem?_set_ne hne, h.slots id hid, Configuration.states_move_of_ne c heq]

theorem Simulates.congr (h : Simulates count c core nodes) (hsame : SameQueue core core') :
    Simulates count c core' nodes := ⟨h.pooled.congr hsame, h.length, h.slots⟩

/-- A callback of a simulated run is a move of its node. Assumes: what the callback yields is a
move. -/
theorem Simulates.runCallback {P : Protocol NodeId N.State (Envelope N)}
    (h : Simulates count c core nodes) {me : NodeId}
    {callback : N.State → Effects N.Msg N.Timer N.Response N.State}
    (hstep : ∀ state out, me.id < count →
      Yields me (peersOf count me) (callback (c.states me)) out state →
        P.Step c (c.move me state (out.filterMap (addressed me))))
    (hrun : Simulator.runCallback codec core nodes me callback = .ok (core', nodes')) :
    ∃ c', P.Steps c c' ∧ Simulates count c' core' nodes' := by
  obtain ⟨-, ⟨hslot, -⟩ | ⟨node, node', hslot, hcallback, rfl⟩⟩ := runCallback_eq_ok hrun
  · cases (h.of_slot hslot).2
  · obtain ⟨hme, hnode⟩ := h.of_slot hslot
    obtain rfl := Option.some.inj hnode
    obtain ⟨out, hyields, hpooled⟩ := h.pooled.run hcallback
    exact ⟨_, .single (hstep node' out hme hyields), h.move hme node' hpooled⟩

/-- The dispatch of an operation of the stream is a move of the node that it is routed to. -/
theorem Simulates.dispatchClientOp (h : Simulates count c core nodes) {process : NodeId}
    {op : FrozenOp} (hop : op ∈ ops)
    (htarget : target op process count.toNat = target op op.process count.toNat)
    (hdispatch : Simulator.dispatchClientOp codec core nodes process op = .ok (core', nodes')) :
    ∃ c', (asyncProtocol N codec ops count).Steps c c' ∧ Simulates count c' core' nodes' := by
  unfold Simulator.dispatchClientOp at hdispatch
  simp only [h.length] at hdispatch
  split at hdispatch
  · obtain ⟨rfl, rfl⟩ := Prod.mk.inj (Except.ok.inj hdispatch)
    exact ⟨c, .refl, (h.congr (sameQueue_openOp _ _ _ _)).congr (sameQueue_closeOp _ _ _ _)⟩
  rename_i f typedOp hdecode
  have hopened : Simulates count c (core.openOp ⟨process.id⟩ f op.op).2 nodes :=
    h.congr (sameQueue_openOp _ _ _ _)
  split at hdispatch
  · cases hdispatch
  · obtain ⟨rfl, rfl⟩ := Prod.mk.inj (Except.ok.inj hdispatch)
    exact ⟨c, .refl, hopened.congr (sameQueue_closeOp _ _ _ _)⟩
  rename_i node hslot
  generalize hme : (⟨.ofNat (target op process count.toNat)⟩ : NodeId) = me at hdispatch
  have hid : me.id.toNat = target op process count.toNat := by
    have hlt := (List.getElem?_eq_some_iff.mp hslot).1
    rw [h.length] at hlt
    rw [← hme]
    exact UInt64.toNat_ofNat_of_lt' (hlt.trans count.toNat_lt)
  rw [← hid] at hslot hdispatch
  obtain ⟨hlt, hnode⟩ := h.of_slot hslot
  obtain rfl := Option.some.inj hnode
  split at hdispatch
  · cases hdispatch
  rename_i node' outcome after hrun
  obtain ⟨out, hyields, hpooled⟩ := hopened.pooled.run hrun
  have hstep : (asyncProtocol N codec ops count).Step c
      (c.move me node' (out.filterMap (addressed me))) :=
    .act (.serve hlt hop hdecode (htarget.symm.trans hid.symm) hyields)
  have hafter := hopened.move hlt node' hpooled
  split at hdispatch
  · obtain ⟨rfl, rfl⟩ := Prod.mk.inj (Except.ok.inj hdispatch)
    exact ⟨_, .single hstep, hafter.congr (sameQueue_closeOp _ _ _ _)⟩
  · obtain ⟨rfl, rfl⟩ := Prod.mk.inj (Except.ok.inj hdispatch)
    exact ⟨_, .single hstep, hafter⟩

/-- The dispatch of what the queue hands to the driver. -/
theorem Simulates.dispatch (h : Simulates count c core nodes) {popped : PoppedEvent N}
    {event : Scheduled N} {before : SchedCore N}
    (hresolves : Resolves before event (some popped) core)
    (hpool : ∀ item ∈ event.kind.envelope, item ∈ c.pool)
    (htarget : ∀ process index op, event.kind = .clientOp process index → ops[index]? = some op →
      target op process count.toNat = target op op.process count.toNat)
    (hdispatch : Simulator.dispatch codec ops core nodes popped = .ok (core', nodes')) :
    ∃ c', (asyncProtocol N codec ops count).Steps c c' ∧ Simulates count c' core' nodes' := by
  cases popped with
  | deliver sender recipient msg =>
    refine h.runCallback (fun state out hme hyields ↦ ?_) hdispatch
    have htakes : Takes count recipient (.message sender msg) (c.states recipient) state _ :=
      .intro hme hyields
    refine .take (hpool _ ?_) htakes
    cases hresolves with
    | deliver hkind => simp [hkind, EventKind.envelope]
  | timer node timer =>
    refine h.runCallback (fun state out hme hyields ↦ ?_) hdispatch
    have htakes : Takes count node (.timer timer) (c.states node) state _ := .intro hme hyields
    refine .take (hpool _ ?_) htakes
    cases hresolves with
    | timer hkind => simp [hkind, EventKind.envelope]
  | clientOp process index =>
    have hkind := (hresolves.clientOp_iff process index).mpr rfl
    rw [Simulator.dispatch] at hdispatch
    split at hdispatch
    · cases hdispatch
    · rename_i op hop
      exact h.dispatchClientOp (List.mem_of_getElem? hop) (htarget process index op hkind hop)
        hdispatch
  | fault rejoined =>
    cases rejoined with
    | none =>
      obtain ⟨rfl, rfl⟩ := Prod.mk.inj (Except.ok.inj hdispatch)
      exact ⟨c, .refl, h⟩
    | some n =>
      exact h.runCallback (fun state out hme hyields ↦ .act (.start hme hyields)) hdispatch

/-- Pumping schedules nothing that a node takes up. -/
theorem Simulates.pumpClientOps {state next : RunState N}
    (h : Simulates count c state.core state.nodes)
    (hpump : Simulator.pumpClientOps state = .ok next) :
    Simulates count c next.core next.nodes := by
  have hpooled := pumpClientOps_core (P := Pooled count c.pool)
    (fun core fireAt process index _ hcore ↦ hcore.enqueue fireAt (by simp [EventKind.envelope]))
    hpump h.pooled
  have hnodes := (pumpClientOps_frame hpump).1
  exact ⟨hpooled, hnodes ▸ h.length, hnodes ▸ h.slots⟩

end Moves

/-! ### The runs -/

/-- The frames of a run so far are passed, in order, by a run of the protocol that leads to a
configuration of the run. -/
def Traced (count : UInt64) (P : Protocol NodeId N.State (Envelope N)) (state : RunState N) :
    Prop :=
  ∃ passed c, (P.initial :: (passed ++ [c])).Pairwise P.Steps ∧
    state.frames.map (·.2) = passed.map (clusterStates count) ∧
      Simulates count c state.core state.nodes

section Runs

variable {count : UInt64} {P : Protocol NodeId N.State (Envelope N)}

/-- The last configuration of a run goes on. -/
theorem pairwise_goOn {first c c' : Configuration NodeId N.State (Envelope N)}
    {passed : List (Configuration NodeId N.State (Envelope N))}
    (h : (first :: (passed ++ [c])).Pairwise P.Steps) (hsteps : P.Steps c c') :
    (first :: (passed ++ [c'])).Pairwise P.Steps := by
  rw [← List.cons_append, List.pairwise_append] at h ⊢
  refine ⟨h.1, List.pairwise_singleton _ _, fun a ha b hb ↦ ?_⟩
  rw [List.mem_singleton.mp hb]
  exact (h.2.2 a ha c (List.mem_singleton_self c)).trans hsteps

/-- A frame is taken of a traced run. -/
theorem Traced.snapshot {state : RunState N} (h : Traced count P state) :
    Traced count P (snapshot state) := by
  obtain ⟨passed, c, hpairwise, hframes, hsim⟩ := h
  refine ⟨passed ++ [c], c, ?_, ?_, hsim⟩
  · rw [← List.cons_append, List.pairwise_append] at hpairwise ⊢
    refine ⟨List.pairwise_append.mpr hpairwise, List.pairwise_singleton _ _, fun a ha b hb ↦ ?_⟩
    rw [List.mem_singleton.mp hb]
    rw [← List.cons_append] at ha
    rcases List.mem_append.mp ha with ha | ha
    · exact hpairwise.2.2 a ha c (List.mem_singleton_self c)
    · rw [List.mem_singleton.mp ha]
      exact .refl
  · rw [List.map_append, ← hframes]
    exact (List.map_append ..).trans (congrArg (_ ++ [·]) hsim.filterMap_nodes)

/-- A turn of the loop goes on with the run of the protocol. Assumes: an operation that it takes is
routed as it was written. -/
theorem Turn.traced {state next : RunState N} {event : Scheduled N}
    (h : Turn codec ops state event next)
    (htarget : ∀ process index op, event.kind = .clientOp process index → ops[index]? = some op →
      target op process count.toNat = target op op.process count.toNat)
    (hstate : Traced count (asyncProtocol N codec ops count) state) :
    Traced count (asyncProtocol N codec ops count) next := by
  obtain ⟨passed, c, hpairwise, hframes, hsim⟩ := hstate
  have hresolved {queue : PriorityQueue Scheduled.key} {popped : Option (PoppedEvent N)}
      {core : SchedCore N} (hpop : state.core.queue.pop = some (event, queue))
      (hresolve : SchedCore.resolve { state.core with queue := queue } event = (popped, core)) :
      (∀ item ∈ event.kind.envelope, item ∈ c.pool) ∧ Simulates count c core state.nodes := by
    obtain ⟨hitem, hpooled⟩ := hsim.pooled.take hpop
    exact ⟨hitem, hpooled.congr (sameQueue_resolve hresolve), hsim.length, hsim.slots⟩
  cases h with
  | skip hpop hbelow hresolve =>
    exact ⟨passed, c, hpairwise, hframes, (hresolved hpop hresolve).2⟩
  | fire hpop hbelow hresolve hhandle =>
    obtain ⟨hitem, hcore⟩ := hresolved hpop hresolve
    obtain ⟨core', nodes', pumped, hdispatch, hpump, rfl⟩ := exists_pump_of_handle hhandle
    obtain ⟨c', hsteps, hsim'⟩ :=
      hcore.dispatch (resolves_of_resolve hresolve) hitem htarget hdispatch
    refine Traced.snapshot ⟨passed, c', pairwise_goOn hpairwise hsteps, ?_,
      hsim'.pumpClientOps hpump⟩
    rw [frames_pumpClientOps hpump]
    exact hframes

end Runs

section Executions

variable {data : PlanData} {workload : Option Strategy} {seed : Seed}

/-- Before the nodes start, the queue holds nothing for them. -/
theorem Execution.simulates_prepared (e : Execution N data workload codec seed) :
    Simulates (nodeCount data)
      (asyncProtocol N codec (resolveOps data workload seed) (nodeCount data)).initial e.prepared
      (List.replicate e.prepared.nodeCount.toNat (some N.default)) := by
  rw [e.prepared_nodeCount]
  refine ⟨⟨e.prepared_nodeCount, fun event hevent ↦ ?_⟩, List.length_replicate, fun id hid ↦ ?_⟩
  · rw [← prepared_faultEvents e.prepare_eq] at hevent
    obtain ⟨action, hkind⟩ := (mem_faultEvents.mp hevent).2
    simp [hkind, EventKind.envelope]
  · exact List.getElem?_replicate_of_lt (UInt64.lt_iff_toNat_lt.mp hid)

/-- Starting the nodes, one after the other, and taking the first frame. -/
theorem Execution.traced_started (e : Execution N data workload codec seed) :
    Traced (nodeCount data) (asyncProtocol N codec (resolveOps data workload seed) (nodeCount data))
      e.started := by
  obtain ⟨core, nodes, hnodes, hpump⟩ := startRun_eq_ok.mp e.start_eq
  have hprepared := e.simulates_prepared
  generalize hP : asyncProtocol N codec (resolveOps data workload seed) (nodeCount data) = P at *
  have hstarted : ∃ c, P.Steps P.initial c ∧ Simulates (nodeCount data) c core nodes := by
    refine foldlM_invariant (P := fun s : SchedCore N × List (Option N.State) ↦
      ∃ c, P.Steps P.initial c ∧ Simulates (nodeCount data) c s.1 s.2)
      (fun id _ s s' hs hdispatch ↦ ?_) ⟨P.initial, .refl, hprepared⟩ hnodes
    obtain ⟨c, hsteps, hsim⟩ := hs
    obtain ⟨c', hstep, hsim'⟩ := hsim.runCallback (P := P)
      (fun state out hme hyields ↦ hP ▸ .act (.start hme hyields)) hdispatch
    exact ⟨c', hsteps.trans hstep, hsim'⟩
  obtain ⟨c, hsteps, hsim⟩ := hstarted
  have hunpumped : Traced (nodeCount data) P
      (unpumped (resolveOps data workload seed) e.prepared.nodeCount core nodes) := by
    refine Traced.snapshot ⟨[], c, ?_, rfl, hsim⟩
    simpa using hsteps
  obtain ⟨passed, c, hpairwise, hframes, hsim⟩ := hunpumped
  refine ⟨passed, c, hpairwise, ?_, hsim.pumpClientOps hpump⟩
  rw [frames_pumpClientOps hpump]
  exact hframes

/-- Every state of an execution is traced. -/
theorem Execution.traced (e : Execution N data workload codec seed) :
    ∀ state ∈ e.states, Traced (nodeCount data)
      (asyncProtocol N codec (resolveOps data workload seed) (nodeCount data)) state := by
  refine e.loop.invariant_taken (fun s event next hevent hs hturn ↦ ?_) e.traced_started
  refine hturn.traced (fun process index op hkind hop ↦ ?_) hs
  obtain ⟨op', hop', hprocess⟩ := e.process_of_taken hevent hkind
  obtain rfl := Option.some.inj (hop'.symm.trans hop)
  rw [e.prepared_nodeCount] at hprocess
  exact target_of_process hprocess

/-- The frames of an execution are configurations that one run of the protocol passes. -/
theorem Execution.passes (e : Execution N data workload codec seed) :
    ∃ passed : List (Configuration NodeId N.State (Envelope N)),
      ((asyncProtocol N codec (resolveOps data workload seed) (nodeCount data)).initial ::
        passed).Pairwise
          (asyncProtocol N codec (resolveOps data workload seed) (nodeCount data)).Steps ∧
        e.result.worldTrace.frames.map (·.2) = passed.map (clusterStates (nodeCount data)) := by
  obtain ⟨passed, c, hpairwise, hframes, -⟩ := e.traced _ (List.mem_of_getElem? e.states_last)
  refine ⟨passed, hpairwise.sublist ((List.sublist_append_left _ _).cons_cons _), ?_⟩
  rw [← hframes, ← e.frames_final]
  rfl

/-- Every run of the simulator is a run of the asynchronous protocol: its frames are, in order,
configurations that the protocol passes on one of its runs. -/
theorem runDeterministic_traces {fuel : ℕ} {nodeDef : Option NodeDef} {run : TypedRun N}
    (h : runDeterministic fuel data nodeDef workload codec seed = .ok (.ok run)) :
    ∃ passed : List (Configuration NodeId N.State (Envelope N)),
      ((asyncProtocol N codec (resolveOps data workload seed) (nodeCount data)).initial ::
        passed).Pairwise
          (asyncProtocol N codec (resolveOps data workload seed) (nodeCount data)).Steps ∧
        run.worldTrace.frames.map (·.2) = passed.map (clusterStates (nodeCount data)) := by
  obtain ⟨e, rfl⟩ := exists_execution h
  exact e.passes

theorem counterScript_traces :
    ∃ run, runDeterministic 8 counterScript none none (some counterCodec) ⟨0⟩ = .ok (.ok run) ∧
      ∃ passed : List (Configuration NodeId ℕ (Envelope counter)),
        ((asyncProtocol counter (some counterCodec) (resolveOps counterScript none ⟨0⟩)
          (nodeCount counterScript)).initial :: passed).Pairwise
            (asyncProtocol counter (some counterCodec) (resolveOps counterScript none ⟨0⟩)
              (nodeCount counterScript)).Steps ∧
          run.worldTrace.frames.map (·.2) =
            passed.map (clusterStates (nodeCount counterScript)) := by
  obtain ⟨run, hrun⟩ := exists_run_of_isSome (N := counter)
    (x := runDeterministic 8 counterScript none none (some counterCodec) ⟨0⟩) (by decide +kernel)
  exact ⟨run, hrun, runDeterministic_traces hrun⟩

/-- Every frame of a run shows a configuration that the protocol can reach. -/
theorem reachable_of_mem_frames {fuel : ℕ} {nodeDef : Option NodeDef} {run : TypedRun N}
    (h : runDeterministic fuel data nodeDef workload codec seed = .ok (.ok run))
    {frame : Duration × List N.State} (hframe : frame ∈ run.worldTrace.frames) :
    ∃ c, (asyncProtocol N codec (resolveOps data workload seed) (nodeCount data)).Reachable c ∧
      frame.2 = clusterStates (nodeCount data) c := by
  obtain ⟨e, rfl⟩ := exists_execution h
  obtain ⟨passed, hpairwise, hframes⟩ := e.passes
  obtain ⟨c, hc, heq⟩ := List.mem_map.mp (hframes ▸ List.mem_map_of_mem hframe)
  exact ⟨c, (List.pairwise_cons.mp hpairwise).1 c hc, heq.symm⟩

/-- A safety property of the protocol is never reported: an always property that holds of the nodes
in every configuration that the protocol can reach is valid on every run. -/
theorem always_isValid_of_reachable {fuel : ℕ} {nodeDef : Option NodeDef} {run : TypedRun N}
    {prop : Property N.State} (hkind : prop.kind = .always)
    (hreachable : ∀ c,
      (asyncProtocol N codec (resolveOps data workload seed) (nodeCount data)).Reachable c →
        ∀ history now, prop.predicate ⟨clusterStates (nodeCount data) c, history, now⟩ = true)
    (h : runDeterministic fuel data nodeDef workload codec seed = .ok (.ok run)) :
    evaluateOne prop run.worldTrace run.events = .ok .valid := by
  have hnone : run.worldTrace.frames.find? (fun frame ↦ !evalFrame prop run.worldTrace frame) =
      none := by
    refine List.find?_eq_none.mpr fun frame hframe ↦ ?_
    obtain ⟨c, hc, heq⟩ := reachable_of_mem_frames h hframe
    rw [evalFrame, heq, hreachable c hc]
    exact Bool.not_true.symm ▸ Bool.false_ne_true
  rw [evaluateOne, hkind]
  simp only [hnone]

end Executions

end Propsim.Simulator
