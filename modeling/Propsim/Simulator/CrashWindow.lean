import Propsim.Simulator.Gating

/-!
# What a crashed node still does

Between a crash and the next restart of a node, `pop` withholds its messages and timers, but a
client operation is dispatched to it: the slot of a crashed node is never empty
(`Execution.occupied`), so the branch that would close the operation as indeterminate is never
taken. `Turn.spares_iff` says which turns spare the crashed nodes, whether or not the run comes to
an end, and `runDeterministic_crashSafe_iff` in which runs the crash windows are kept.
-/

set_option autoImplicit false
set_option relaxedAutoImplicit false

namespace Propsim.Simulator

open Foundation Interchange Propsim.Core

variable {N : Node} {codec : Option (ClientCodec N)} {ops : List FrozenOp}

/-! ### Crash windows -/

/-- The codec decodes an operation. -/
def Decodes (codec : Option (ClientCodec N)) (op : FrozenOp) : Prop :=
  (codec.bind fun c ↦ c.decode op.op).isSome = true

/-- The node whose `onMsg`, `onTimer` or `onClientOp` an event invokes. -/
def calledNode (codec : Option (ClientCodec N)) (ops : List FrozenOp) (nodeCount : ℕ) :
    PoppedEvent N → Option ℕ
  | .deliver _ recipient _ => some recipient.id.toNat
  | .timer node _ => some node.id.toNat
  | .clientOp process index =>
    match ops[index]? with
    | none => none
    | some op =>
      if (codec.bind fun c ↦ c.decode op.op).isSome then some (target op process nodeCount)
      else none
  | .fault _ => none

/-- Taking an event in a state invokes `onMsg`, `onTimer` or `onClientOp` of a node. -/
def Calls (codec : Option (ClientCodec N)) (ops : List FrozenOp) (state : RunState N)
    (event : Scheduled N) (n : NodeId) : Prop :=
  ∃ popped, (state.core.resolve event).1 = some popped ∧
    calledNode codec ops state.nodes.length popped = some n.id.toNat ∧
    ∃ node, state.nodes[n.id.toNat]? = some (some node)

/-- A crash of a node was taken before a position, and no restart of it since. -/
def DownBefore (taken : List (Scheduled N)) (n : NodeId) (j : ℕ) : Prop :=
  ∃ i < j, (∃ event, taken[i]? = some event ∧ event.kind = .fault (.crash n)) ∧
    ∀ (k : ℕ) (event : Scheduled N), i < k → k < j → taken[k]? = some event →
      event.kind ≠ .fault (.restart n)

/-- A turn spares a crashed node: it invokes none of its callbacks, leaves its slot alone, and
closes every operation of the covered kind that is targeted at it as indeterminate. -/
structure Spared (codec : Option (ClientCodec N)) (ops : List FrozenOp)
    (covers : FrozenOp → Prop) (state : RunState N) (event : Scheduled N) (next : RunState N)
    (n : NodeId) : Prop where
  callback : ¬ Calls codec ops state event n
  slot : next.nodes[n.id.toNat]? = state.nodes[n.id.toNat]?
  info : ∀ process index op, event.kind = .clientOp process index → ops[index]? = some op →
    covers op → target op process state.nodes.length = n.id.toNat →
      ∃ inv c, next.core.history.entries = state.core.history.entries ++ [inv, c] ∧
        inv.kind = .invoke ∧ c.kind = .info ∧ inv.process = ⟨process.id⟩ ∧ c.process = ⟨process.id⟩

section Executions

variable {data : PlanData} {workload : Option Strategy} {seed : Seed}

/-- Every turn of a crash window spares the crashed node. -/
def CrashSafe (covers : FrozenOp → Prop) (e : Execution N data workload codec seed) : Prop :=
  ∀ (j : ℕ) (state : RunState N) (event : Scheduled N) (next : RunState N),
    e.states[j]? = some state → e.steps[j]? = some (event, next) →
      ∀ n, DownBefore e.taken n j → event.kind ≠ .fault (.restart n) →
        Spared codec (resolveOps data workload seed) covers state event next n

/-- No operation of the covered kind is taken from the queue while its target is crashed. -/
def AvoidsCrashed (covers : FrozenOp → Prop) (e : Execution N data workload codec seed) : Prop :=
  ∀ (j : ℕ) (state : RunState N) (event : Scheduled N), e.states[j]? = some state →
    e.taken[j]? = some event → ∀ process index op, event.kind = .clientOp process index →
      (resolveOps data workload seed)[index]? = some op → covers op →
        ∀ n ∈ state.core.crashed, target op process state.nodes.length ≠ n.id.toNat

end Executions

/-! ### The crashed set -/

theorem mem_crashed_applyFault (core : SchedCore N) (action : FaultAction) (n : NodeId) :
    n ∈ (core.applyFault action).2.crashed ↔
      action = .crash n ∨ n ∈ core.crashed ∧ action ≠ .restart n := by
  cases action with
  | partition a b => simp [SchedCore.applyFault]
  | healAll => simp [SchedCore.applyFault]
  | crash m =>
    obtain ⟨history, pendingOps, hcrash⟩ := applyFault_crash core m
    simp only [hcrash, FaultAction.crash.injEq, ne_eq, reduceCtorEq, not_false_eq_true, and_true]
    split_ifs with hm
    · constructor
      · exact Or.inr
      · rintro (rfl | hn)
        · exact hm
        · exact hn
    · rw [List.mem_append, List.mem_singleton, or_comm, eq_comm]
  | restart m =>
    simp only [SchedCore.applyFault, List.mem_filter, decide_eq_true_eq, reduceCtorEq, false_or,
      ne_eq, FaultAction.restart.injEq]
    rw [eq_comm (a := n)]

/-- Pumping changes the queue and the bookkeeping of the processes only. -/
theorem pumpClientOps_frame {state next : RunState N} (h : pumpClientOps state = .ok next) :
    next.nodes = state.nodes ∧
      next.core = { state.core with queue := next.core.queue, seq := next.core.seq } := by
  refine foldlM_invariant
    (P := fun s : RunState N ↦ s.nodes = state.nodes ∧
      s.core = { state.core with queue := s.core.queue, seq := s.core.seq })
    (fun p _ s s' hs hpump ↦ ?_) ⟨rfl, rfl⟩ h
  unfold pumpProcess at hpump
  split at hpump
  · obtain rfl := Except.ok.inj hpump
    exact hs
  split at hpump
  · obtain rfl := Except.ok.inj hpump
    exact hs
  split at hpump
  · simp at hpump
  · obtain rfl := Except.ok.inj hpump
    refine ⟨hs.1, ?_⟩
    rw [SchedCore.scheduleClientOp, SchedCore.enqueue, hs.2]

/-- Handling an event is dispatching it, up to the queue and the bookkeeping. -/
theorem handle_eq_ok {state next : RunState N} {popped : PoppedEvent N}
    (h : handle codec ops state popped = .ok next) :
    ∃ core nodes, dispatch codec ops state.core state.nodes popped = .ok (core, nodes) ∧
      next.nodes = nodes ∧
      next.core = { core with queue := next.core.queue, seq := next.core.seq } := by
  rw [handle, except_bind_eq_ok] at h
  obtain ⟨⟨core, nodes⟩, hdispatch, h⟩ := h
  rw [except_bind_eq_ok] at h
  obtain ⟨pumped, hpump, h⟩ := h
  obtain rfl := except_pure_eq_ok.mp h
  exact ⟨core, nodes, hdispatch, pumpClientOps_frame hpump⟩

theorem sameCluster_handle {state next : RunState N} {popped : PoppedEvent N}
    (h : handle codec ops state popped = .ok next) : SameCluster state.core next.core := by
  obtain ⟨core, nodes, hdispatch, -, hcore⟩ := handle_eq_ok h
  have hpump : SameCluster core next.core := by
    rw [hcore]
    exact ⟨rfl, rfl, rfl, rfl, rfl⟩
  refine SameCluster.trans ?_ hpump
  rcases dispatch_steps hdispatch with ⟨hsteps, -⟩ | ⟨process, index, op, f, -, -, hsteps⟩
  · exact hsteps.sameCluster
  · have hopen : SameCluster state.core (state.core.openOp ⟨process.id⟩ f op.op).2 :=
      ⟨rfl, rfl, rfl, rfl, rfl⟩
    exact hopen.trans hsteps.sameCluster

/-- The start of a run changes neither the network nor the cluster. -/
theorem sameCluster_started {prepared : SchedCore N} {started : RunState N}
    (h : startRun codec ops prepared = .ok started) : SameCluster prepared started.core := by
  obtain ⟨core, nodes, hnodes, hpump⟩ := startRun_eq_ok.mp h
  rw [(pumpClientOps_frame hpump).2]
  exact (startNodes_steps hnodes).sameCluster.trans ⟨rfl, rfl, rfl, rfl, rfl⟩

/-- Resolving an event crashes and restarts the nodes that it names. -/
theorem mem_crashed_resolve {core core' : SchedCore N} {event : Scheduled N}
    {popped : Option (PoppedEvent N)} (h : core.resolve event = (popped, core')) (n : NodeId) :
    n ∈ core'.crashed ↔ event.kind = .fault (.crash n) ∨
      n ∈ core.crashed ∧ event.kind ≠ .fault (.restart n) := by
  cases resolves_of_resolve h with
  | skipped hclient hfault => simp [hfault]
  | deliver hkind _ => simp [hkind]
  | timer hkind _ _ => simp [hkind]
  | clientOp hkind => simp [hkind]
  | fault hkind =>
    rw [mem_crashed_applyFault, hkind]
    simp

/-- A turn crashes and restarts the nodes that its event names. -/
theorem Turn.mem_crashed_iff {state next : RunState N} {event : Scheduled N}
    (h : Turn codec ops state event next) (n : NodeId) :
    n ∈ next.core.crashed ↔ event.kind = .fault (.crash n) ∨
      n ∈ state.core.crashed ∧ event.kind ≠ .fault (.restart n) := by
  cases h with
  | skip hpop hbelow hresolve => exact mem_crashed_resolve hresolve n
  | fire hpop hbelow hresolve hhandle =>
    rw [(sameCluster_handle hhandle).crashed_eq]
    exact mem_crashed_resolve hresolve n

theorem downBefore_succ {taken : List (Scheduled N)} {j : ℕ} {event : Scheduled N}
    (hevent : taken[j]? = some event) (n : NodeId) :
    DownBefore taken n (j + 1) ↔ event.kind = .fault (.crash n) ∨
      DownBefore taken n j ∧ event.kind ≠ .fault (.restart n) := by
  constructor
  · rintro ⟨i, hi, ⟨crash, hcrash, hkind⟩, hsince⟩
    rcases Nat.lt_succ_iff_lt_or_eq.mp hi with hlt | rfl
    · refine Or.inr ⟨⟨i, hlt, ⟨crash, hcrash, hkind⟩, fun k e hik hkj ↦ ?_⟩, ?_⟩
      · exact hsince k e hik (Nat.lt_succ_of_lt hkj)
      · exact hsince j event hlt (Nat.lt_succ_self j) hevent
    · obtain rfl := Option.some.inj (hcrash.symm.trans hevent)
      exact Or.inl hkind
  · rintro (hkind | ⟨⟨i, hi, hcrash, hsince⟩, hne⟩)
    · exact ⟨j, Nat.lt_succ_self j, ⟨event, hevent, hkind⟩, fun k e hjk hkj ↦ by omega⟩
    · refine ⟨i, Nat.lt_succ_of_lt hi, hcrash, fun k e hik hkj he ↦ ?_⟩
      rcases Nat.lt_succ_iff_lt_or_eq.mp hkj with hlt | rfl
      · exact hsince k e hik hlt he
      · exact Option.some.inj (he.symm.trans hevent) ▸ hne

/-- Whether a node is down before a position is settled by the events before it. -/
theorem downBefore_append {taken rest : List (Scheduled N)} {n : NodeId} {j : ℕ}
    (hj : j ≤ taken.length) : DownBefore (taken ++ rest) n j ↔ DownBefore taken n j := by
  have hsame {k : ℕ} (hk : k < j) : (taken ++ rest)[k]? = taken[k]? :=
    List.getElem?_append_left (hk.trans_le hj)
  constructor
  · rintro ⟨i, hi, hcrash, hsince⟩
    rw [hsame hi] at hcrash
    exact ⟨i, hi, hcrash, fun k event hik hkj hk ↦ hsince k event hik hkj ((hsame hkj).trans hk)⟩
  · rintro ⟨i, hi, hcrash, hsince⟩
    rw [← hsame hi] at hcrash
    exact ⟨i, hi, hcrash, fun k event hik hkj hk ↦
      hsince k event hik hkj ((hsame hkj).symm.trans hk)⟩

/-! ### The node slots -/

/-- Every node is in its slot. -/
def Occupied (nodes : List (Option N.State)) : Prop := ∀ slot ∈ nodes, slot.isSome = true

theorem Occupied.set {nodes : List (Option N.State)} (h : Occupied nodes) (i : ℕ)
    (node : N.State) : Occupied (nodes.set i (some node)) := by
  intro slot hslot
  rcases List.mem_or_eq_of_mem_set hslot with hslot | rfl
  · exact h slot hslot
  · rfl

/-- Dispatching an event leaves the slots alone, or it sets the slot of the node that it calls or
starts. -/
theorem dispatch_nodes {core core' : SchedCore N} {nodes nodes' : List (Option N.State)}
    {popped : PoppedEvent N} (h : dispatch codec ops core nodes popped = .ok (core', nodes')) :
    nodes' = nodes ∨ ∃ i node, nodes' = nodes.set i (some node) ∧
      (calledNode codec ops nodes.length popped = some i ∨
        ∃ m, popped = .fault (some m) ∧ i = m.id.toNat) := by
  have hcallback {id : NodeId}
      {callback : N.State → Effects N.Msg N.Timer N.Response N.State}
      (hrun : runCallback codec core nodes id callback = .ok (core', nodes')) :
      nodes' = nodes ∨ ∃ node, nodes' = nodes.set id.id.toNat (some node) := by
    obtain ⟨-, ⟨-, heq⟩ | ⟨node, node', -, -, heq⟩⟩ := runCallback_eq_ok hrun
    · exact Or.inl heq
    · exact Or.inr ⟨node', heq⟩
  cases popped with
  | deliver sender recipient msg =>
    rcases hcallback h with heq | ⟨node, heq⟩
    · exact Or.inl heq
    · exact Or.inr ⟨_, node, heq, Or.inl rfl⟩
  | timer id timer =>
    rcases hcallback h with heq | ⟨node, heq⟩
    · exact Or.inl heq
    · exact Or.inr ⟨_, node, heq, Or.inl rfl⟩
  | clientOp process index =>
    simp only [dispatch] at h
    split at h
    · simp at h
    rename_i op hop
    simp only [calledNode, hop]
    unfold dispatchClientOp at h
    simp only at h
    split at h
    · obtain ⟨-, rfl⟩ := Prod.mk.inj (Except.ok.inj h)
      exact Or.inl rfl
    rename_i f typedOp hdecode
    rw [hdecode]
    split at h
    · simp at h
    · obtain ⟨-, rfl⟩ := Prod.mk.inj (Except.ok.inj h)
      exact Or.inl rfl
    split at h
    · simp at h
    split at h
    all_goals
      obtain ⟨-, rfl⟩ := Prod.mk.inj (Except.ok.inj h)
      exact Or.inr ⟨_, _, rfl, Or.inl rfl⟩
  | fault rejoined =>
    cases rejoined with
    | none =>
      obtain ⟨-, rfl⟩ := Prod.mk.inj (Except.ok.inj h)
      exact Or.inl rfl
    | some m =>
      rcases hcallback h with heq | ⟨node, heq⟩
      · exact Or.inl heq
      · exact Or.inr ⟨_, node, heq, Or.inr ⟨m, rfl, rfl⟩⟩

theorem length_dispatch {core core' : SchedCore N} {nodes nodes' : List (Option N.State)}
    {popped : PoppedEvent N} (h : dispatch codec ops core nodes popped = .ok (core', nodes')) :
    nodes'.length = nodes.length := by
  rcases dispatch_nodes h with rfl | ⟨i, node, rfl, -⟩
  · rfl
  · exact List.length_set

theorem Turn.length_nodes {state next : RunState N} {event : Scheduled N}
    (h : Turn codec ops state event next) : next.nodes.length = state.nodes.length := by
  cases h with
  | skip => rfl
  | fire hpop hbelow hresolve hhandle =>
    obtain ⟨core, nodes, hdispatch, hnodes, -⟩ := handle_eq_ok hhandle
    rw [hnodes]
    exact length_dispatch hdispatch

theorem length_startNodes {prepared core : SchedCore N} {nodes : List (Option N.State)}
    (h : startNodes codec prepared = .ok (core, nodes)) :
    nodes.length = prepared.nodeCount.toNat := by
  refine foldlM_invariant (P := fun s : SchedCore N × List (Option N.State) ↦
    s.2.length = prepared.nodeCount.toNat) (fun id _ s s' hs hdispatch ↦ ?_)
    List.length_replicate h
  rcases (runCallback_eq_ok hdispatch).2 with ⟨-, hsame⟩ | ⟨node, node', -, -, hset⟩
  · rw [hsame]
    exact hs
  · rw [hset, List.length_set]
    exact hs

/-- A turn leaves every node in its slot. -/
theorem Turn.occupied {state next : RunState N} {event : Scheduled N}
    (h : Turn codec ops state event next) (hstate : Occupied state.nodes) :
    Occupied next.nodes := by
  cases h with
  | skip hpop hbelow hresolve => exact hstate
  | fire hpop hbelow hresolve hhandle =>
    obtain ⟨core, nodes, hdispatch, rfl, -⟩ := handle_eq_ok hhandle
    rcases dispatch_nodes hdispatch with heq | ⟨i, node, heq, -⟩
    · exact heq ▸ hstate
    · exact heq ▸ hstate.set i node

theorem occupied_started {prepared : SchedCore N} {started : RunState N}
    (hstart : startRun codec ops prepared = .ok started) : Occupied started.nodes := by
  simp only [startRun, except_bind_eq_ok] at hstart
  obtain ⟨⟨core, nodes⟩, hnodes, hpump⟩ := hstart
  rw [(pumpClientOps_frame hpump).1]
  refine foldlM_invariant
    (P := fun s : SchedCore N × List (Option N.State) ↦ Occupied s.2)
    (fun id _ s s' hs hdispatch ↦ ?_) (fun slot hslot ↦ ?_) hnodes
  · obtain ⟨-, ⟨-, heq⟩ | ⟨node, node', -, -, heq⟩⟩ := runCallback_eq_ok hdispatch
    · exact heq ▸ hs
    · exact heq ▸ hs.set _ node'
  · rw [(List.mem_replicate.mp hslot).2]
    rfl

theorem crashed_started {data : PlanData} {seed : Seed} {prepared : SchedCore N}
    {started : RunState N} (hprepare : prepareCore N data seed = .ok prepared)
    (hstart : startRun codec ops prepared = .ok started) : started.core.crashed = [] := by
  have hprepared : prepared.crashed = [] :=
    prepared_core (P := fun core ↦ core.crashed = []) (fun _ _ _ h ↦ h) (fun _ _ h ↦ h) hprepare
      fun _ _ ↦ rfl
  exact (sameCluster_started hstart).crashed_eq.trans hprepared

/-! ### The operations of a turn -/

/-- The token of a freshly opened operation is pending. -/
theorem pending_openOp {core : SchedCore N}
    (hissued : ∀ entry ∈ core.pendingOps, entry.1 < core.nextToken) (process : ProcessId)
    (f : Function) (value : Value) :
    (core.openOp process f value).2.pending (core.openOp process f value).1 =
      some ⟨process, f⟩ := by
  have hnone : core.pendingOps.find? (fun entry ↦ entry.1 = core.nextToken) = none := by
    refine List.find?_eq_none.mpr fun entry hentry ↦ ?_
    simpa using (hissued entry hentry).ne
  have hnew : (core.openOp process f value).1 = ⟨core.nextToken⟩ := rfl
  rw [SchedCore.pending, pendingOps_openOp, List.find?_append, hnew, hnone]
  simp

theorem entries_openOp (core : SchedCore N) (process : ProcessId) (f : Function) (value : Value) :
    ∃ inv, (core.openOp process f value).2.history.entries = core.history.entries ++ [inv] :=
  ⟨_, rfl⟩

theorem entries_closeOp {core : SchedCore N} {token : OpToken} {op : PendingOp}
    (hop : core.pending token = some op) (kind : OpKind) (value : Value) :
    ∃ c, (core.closeOp token kind value).history.entries = core.history.entries ++ [c] ∧
      c.kind = kind := by
  rw [SchedCore.closeOp, hop]
  exact ⟨_, rfl, rfl⟩

/-- A turn that takes a client operation dispatches it at the time of its event. -/
theorem Turn.dispatchClientOp {state next : RunState N} {event : Scheduled N}
    (h : Turn codec ops state event next) {process : NodeId} {index : ℕ}
    (hkind : event.kind = .clientOp process index) {op : FrozenOp} (hop : ops[index]? = some op) :
    ∃ queue core nodes,
      Simulator.dispatchClientOp codec { state.core with queue := queue, now := event.fireAt }
        state.nodes process op = .ok (core, nodes) ∧ next.core.history = core.history := by
  cases h with
  | skip hpop hbelow hresolve =>
    cases resolves_of_resolve hresolve with
    | skipped hclient _ => exact absurd hkind (hclient process index)
  | @fire queue core popped next hpop hbelow hresolve hhandle =>
    obtain ⟨core', nodes, hdispatch, -, hcore⟩ := handle_eq_ok hhandle
    have hpopped : popped = .clientOp process index ∧
        core = { state.core with queue := queue, now := event.fireAt } := by
      cases resolves_of_resolve hresolve with
      | clientOp hkind' =>
        obtain ⟨rfl, rfl⟩ := EventKind.clientOp.inj (hkind'.symm.trans hkind)
        exact ⟨rfl, rfl⟩
      | deliver hkind' _ => simp [hkind'] at hkind
      | timer hkind' _ _ => simp [hkind'] at hkind
      | fault hkind' => simp [hkind'] at hkind
    obtain ⟨rfl, rfl⟩ := hpopped
    simp only [dispatch, hop] at hdispatch
    exact ⟨queue, core', nodes, hdispatch, by rw [hcore]⟩

/-- An operation that does not decode is closed as failed. -/
theorem Turn.undecoded {state next : RunState N} {event : Scheduled N}
    (h : Turn codec ops state event next) (hrecorded : Recorded state.core) {process : NodeId}
    {index : ℕ} (hkind : event.kind = .clientOp process index) {op : FrozenOp}
    (hop : ops[index]? = some op) (hdecodes : ¬ Decodes codec op) :
    ∃ inv c, next.core.history.entries = state.core.history.entries ++ [inv, c] ∧
      c.kind = .fail := by
  obtain ⟨queue, core, nodes, hdispatch, hhistory⟩ := h.dispatchClientOp hkind hop
  have hnone : (codec.bind fun c ↦ c.decode op.op) = none := by
    simpa [Decodes] using hdecodes
  unfold Simulator.dispatchClientOp at hdispatch
  simp only [hnone] at hdispatch
  obtain ⟨rfl, -⟩ := Prod.mk.inj (Except.ok.inj hdispatch)
  obtain ⟨inv, hopened⟩ := entries_openOp
    { state.core with queue := queue, now := event.fireAt } ⟨process.id⟩ (opFunction op) op.op
  have hissued : ∀ entry ∈ ({ state.core with queue := queue, now := event.fireAt } :
      SchedCore N).pendingOps, entry.1 < state.core.nextToken := hrecorded.issued
  obtain ⟨c, hclosed, hfail⟩ := entries_closeOp
    (pending_openOp hissued ⟨process.id⟩ (opFunction op) op.op) .fail .nil
  refine ⟨inv, c, ?_, hfail⟩
  rw [hhistory, hclosed, hopened, List.append_assoc, List.singleton_append]

/-- An operation that decodes is handed to its target, which is in its slot. -/
theorem Turn.decoded {state next : RunState N} {event : Scheduled N}
    (h : Turn codec ops state event next) (hoccupied : Occupied state.nodes) {process : NodeId}
    {index : ℕ} (hkind : event.kind = .clientOp process index) {op : FrozenOp}
    (hop : ops[index]? = some op) (hdecodes : Decodes codec op) {n : NodeId}
    (htarget : target op process state.nodes.length = n.id.toNat) :
    Calls codec ops state event n := by
  obtain ⟨queue, core, nodes, hdispatch, -⟩ := h.dispatchClientOp hkind hop
  obtain ⟨decoded, hdecoded⟩ := Option.isSome_iff_exists.mp hdecodes
  refine ⟨.clientOp process index, ?_, ?_, ?_⟩
  · rw [SchedCore.resolve, hkind]
  · simp only [calledNode, hop, hdecoded, Option.isSome_some, if_true, htarget]
  · unfold Simulator.dispatchClientOp at hdispatch
    simp only [hdecoded, htarget] at hdispatch
    split at hdispatch
    · simp at hdispatch
    · rename_i hslot
      simpa using hoccupied none (List.mem_of_getElem? hslot)
    · rename_i node hslot
      exact ⟨node, hslot⟩

/-- An event that is resolved while a node is crashed calls that node only when it is an operation
that decodes and is targeted at it. -/
theorem Resolves.calledNode_ne {core core' : SchedCore N} {event : Scheduled N}
    {popped : PoppedEvent N} (h : Resolves core event (some popped) core') {n : NodeId}
    (hn : n ∈ core.crashed) {count : ℕ}
    (havoids : ∀ process index op, event.kind = .clientOp process index →
      ops[index]? = some op → Decodes codec op → target op process count ≠ n.id.toNat) :
    calledNode codec ops count popped ≠ some n.id.toNat := by
  have hother {m : NodeId} (hm : m ∉ core.crashed) : m.id.toNat ≠ n.id.toNat :=
    fun heq ↦ hm (NodeId.eq_of_toNat_eq heq ▸ hn)
  cases h with
  | deliver hkind halive => simpa [calledNode] using hother halive
  | timer hkind hcurrent halive => simpa [calledNode] using hother halive
  | @clientOp process index hkind =>
    rw [calledNode]
    split
    · simp
    · rename_i op hop
      split_ifs with hdecodes
      · simpa using havoids process index op hkind hop hdecodes
      · simp
  | fault hkind => simp [calledNode]

/-- Only a restart names a node to start. -/
theorem Resolves.restart {core core' : SchedCore N} {event : Scheduled N} {m : NodeId}
    (h : Resolves core event (some (.fault (some m))) core') :
    event.kind = .fault (.restart m) := by
  generalize hpopped : some (PoppedEvent.fault (some m)) = popped at h
  cases h with
  | skipped => simp at hpopped
  | deliver => simp at hpopped
  | timer => simp at hpopped
  | clientOp => simp at hpopped
  | @fault action hkind =>
    simp only [Option.some.injEq, PoppedEvent.fault.injEq] at hpopped
    cases action with
    | partition a b => simp [SchedCore.applyFault] at hpopped
    | healAll => simp [SchedCore.applyFault] at hpopped
    | crash n => simp [SchedCore.applyFault] at hpopped
    | restart n =>
      simp only [SchedCore.applyFault, Option.some.injEq] at hpopped
      rw [hkind, hpopped]

/-- A turn spares the crashed nodes exactly when it takes no covered operation that is targeted at
one of them. Assumes: every operation that decodes is covered. -/
theorem Turn.spares_iff {state next : RunState N} {event : Scheduled N}
    (h : Turn codec ops state event next) (hoccupied : Occupied state.nodes)
    (hrecorded : Recorded state.core) {covers : FrozenOp → Prop}
    (hcovers : ∀ op, Decodes codec op → covers op) :
    (∀ n ∈ state.core.crashed, event.kind ≠ .fault (.restart n) →
        Spared codec ops covers state event next n) ↔
      ∀ process index op, event.kind = .clientOp process index → ops[index]? = some op →
        covers op → ∀ n ∈ state.core.crashed,
          target op process state.nodes.length ≠ n.id.toNat := by
  constructor
  · intro hspares process index op hkind hop hcovered n hn htarget
    have hspared := hspares n hn (by simp [hkind])
    by_cases hdecodes : Decodes codec op
    · exact hspared.callback (h.decoded hoccupied hkind hop hdecodes htarget)
    · obtain ⟨inv, c, hentries, -, hinfo, -⟩ :=
        hspared.info process index op hkind hop hcovered htarget
      obtain ⟨inv', c', hentries', hfail⟩ := h.undecoded hrecorded hkind hop hdecodes
      have hsame := List.append_cancel_left (hentries.symm.trans hentries')
      simp only [List.cons.injEq, and_true] at hsame
      rw [hsame.2, hfail] at hinfo
      cases hinfo
  · intro havoids n hn hne
    refine ⟨?_, ?_, fun process index op hkind hop hcovered heq ↦
      absurd heq (havoids process index op hkind hop hcovered n hn)⟩
    · rintro ⟨popped, hpopped, hcalled, -⟩
      have hresolves : Resolves state.core event (some popped) (state.core.resolve event).2 :=
        resolves_of_resolve (Prod.ext hpopped rfl)
      exact hresolves.calledNode_ne hn (fun process index op hkind hop hdecodes ↦
        havoids process index op hkind hop (hcovers op hdecodes) n hn) hcalled
    · cases h with
      | skip hpop hbelow hresolve => rfl
      | fire hpop hbelow hresolve hhandle =>
        have hresolves := resolves_of_resolve hresolve
        obtain ⟨core, nodes, hdispatch, rfl, -⟩ := handle_eq_ok hhandle
        rcases dispatch_nodes hdispatch with heq | ⟨i, node, heq, hi⟩
        · rw [heq]
        · have hother : i ≠ n.id.toNat := by
            rintro rfl
            rcases hi with hcalled | ⟨m, hfault, hm⟩
            · exact hresolves.calledNode_ne hn (fun process index op hkind hop hdecodes ↦
                havoids process index op hkind hop (hcovers op hdecodes) n hn) hcalled
            · obtain rfl := NodeId.eq_of_toNat_eq hm
              exact hne (hfault ▸ hresolves).restart
          rw [heq, List.getElem?_set_ne hother]

section Executions

variable {data : PlanData} {workload : Option Strategy} {seed : Seed}

/-- Every node is in its slot throughout a run. -/
theorem Execution.occupied (e : Execution N data workload codec seed) :
    ∀ state ∈ e.states, Occupied state.nodes :=
  e.loop.invariant (fun _ _ _ hs hturn ↦ hturn.occupied hs) (occupied_started e.start_eq)

/-- A node is in the crashed set exactly in its crash windows. -/
theorem Execution.mem_crashed_iff (e : Execution N data workload codec seed) (n : NodeId) :
    ∀ (j : ℕ) (state : RunState N), e.states[j]? = some state →
      (n ∈ state.core.crashed ↔ DownBefore e.taken n j) := by
  intro j
  induction j with
  | zero =>
    intro state hstate
    obtain rfl : e.started = state := by simpa [Execution.states] using hstate
    rw [crashed_started e.prepare_eq e.start_eq]
    refine iff_of_false (by simp) ?_
    rintro ⟨i, hi, -⟩
    exact absurd hi (Nat.not_lt_zero i)
  | succ j ih =>
    intro state hstate
    obtain ⟨before, event, hbefore, htaken, hturn⟩ := e.exists_turn_to hstate
    rw [hturn.mem_crashed_iff, downBefore_succ htaken, ih before hbefore]

/-- The history and the table of pending operations belong together throughout a run. -/
theorem Execution.recorded (e : Execution N data workload codec seed) :
    ∀ state ∈ e.states, Recorded state.core := by
  intro state hstate
  have hinv := e.loop.invariant
    (P := fun s ↦ (∃ taken, QueueInv taken s.core) ∧ Gated s.scheduled s.core)
    (fun s event next ⟨⟨taken, hqueue⟩, hgated⟩ hturn ↦
      ⟨⟨_, hturn.queueInv hqueue⟩, hturn.gated hqueue.later hgated⟩)
    ⟨⟨[], e.started_queueInv.1⟩, gated_started e.prepare_eq e.start_eq⟩
  exact (hinv state hstate).2.recorded

/-- The crash windows of an execution are kept exactly when no covered operation comes out of the
queue while its target is crashed. Assumes: every operation that decodes is covered. -/
theorem Execution.crashSafe_iff_avoidsCrashed (e : Execution N data workload codec seed)
    {covers : FrozenOp → Prop} (hcovers : ∀ op, Decodes codec op → covers op) :
    CrashSafe covers e ↔ AvoidsCrashed covers e := by
  have hspares {j : ℕ} {state next : RunState N} {event : Scheduled N}
      (hstate : e.states[j]? = some state) (hstep : e.steps[j]? = some (event, next)) :=
    (e.turn_at hstate hstep).spares_iff (e.occupied state (List.mem_of_getElem? hstate))
      (e.recorded state (List.mem_of_getElem? hstate)) hcovers
  constructor
  · intro hsafe j state event hstate htaken process index op hkind hop hcovered n hn
    obtain ⟨⟨event', next⟩, hstep, rfl⟩ : ∃ step, e.steps[j]? = some step ∧ step.1 = event := by
      simpa [Execution.taken] using htaken
    refine (hspares hstate hstep).mp (fun m hm hne ↦ ?_) process index op hkind hop hcovered n hn
    exact hsafe j state event' next hstate hstep m ((e.mem_crashed_iff m j state hstate).mp hm) hne
  · intro havoids j state event next hstate hstep n hdown hne
    have htaken : e.taken[j]? = some event := by simp [Execution.taken, hstep]
    exact (hspares hstate hstep).mpr (havoids j state event hstate htaken) n
      ((e.mem_crashed_iff n j state hstate).mpr hdown) hne

/-- In every run whose loop ends, the crash windows are kept exactly when no operation comes out of
the queue while its target is crashed, for all operations and for those that decode. -/
theorem runDeterministic_crashSafe_iff {fuel : ℕ} {nodeDef : Option NodeDef} {run : TypedRun N}
    (h : runDeterministic fuel data nodeDef workload codec seed = .ok (.ok run)) :
    ∃ e : Execution N data workload codec seed, e.result = run ∧
      (CrashSafe (fun _ ↦ True) e ↔ AvoidsCrashed (fun _ ↦ True) e) ∧
      (CrashSafe (Decodes codec) e ↔ AvoidsCrashed (Decodes codec) e) := by
  obtain ⟨e, he⟩ := exists_execution h
  exact ⟨e, he, e.crashSafe_iff_avoidsCrashed fun _ _ ↦ trivial,
    e.crashSafe_iff_avoidsCrashed fun _ ↦ id⟩

end Executions

/-- The crash windows of the run with a crash, a restart and two clients. -/
theorem counter_crashSafe_iff :
    ∃ run, runDeterministic 8 counterScript none none (some counterCodec) ⟨0⟩ = .ok (.ok run) ∧
      ∃ e : Execution counter counterScript none (some counterCodec) ⟨0⟩, e.result = run ∧
        (CrashSafe (fun _ ↦ True) e ↔ AvoidsCrashed (fun _ ↦ True) e) ∧
        (CrashSafe (Decodes (some counterCodec)) e ↔
          AvoidsCrashed (Decodes (some counterCodec)) e) := by
  obtain ⟨run, hrun⟩ := exists_run_of_isSome (N := counter)
    (x := runDeterministic 8 counterScript none none (some counterCodec) ⟨0⟩) (by decide +kernel)
  exact ⟨run, hrun, runDeterministic_crashSafe_iff hrun⟩

/-! ### A crashed node that executes an operation -/

/-- One counting node, which crashes at the start, and one operation. -/
def crashPlan : PlanData := counterPlan 1 [⟨.zero, .crash ⟨0⟩⟩] [.new ⟨0⟩ .nil]

/-- The fault that an event applies. -/
def faultOf (event : Scheduled N) : Option FaultAction :=
  match event.kind with
  | .fault action => some action
  | _ => none

theorem faultOf_eq_some_iff {event : Scheduled N} {action : FaultAction} :
    faultOf event = some action ↔ event.kind = .fault action := by
  unfold faultOf
  split
  · rename_i action' hkind
    simp [hkind]
  · rename_i hother
    simp only [reduceCtorEq, false_iff]
    exact hother action

/-- The crashed node counts the operation: its state changes in its crash window. -/
theorem crashedCounter_not_crashSafe :
    ∃ run, runDeterministic 8 crashPlan none none (some counterCodec) ⟨0⟩ = .ok (.ok run) ∧
      ∃ e : Execution counter crashPlan none (some counterCodec) ⟨0⟩, e.result = run ∧
        ¬ CrashSafe (fun _ ↦ True) e ∧ ¬ CrashSafe (Decodes (some counterCodec)) e := by
  obtain ⟨run, hrun⟩ := exists_run_of_isSome (N := counter)
    (x := runDeterministic 8 crashPlan none none (some counterCodec) ⟨0⟩) (by decide +kernel)
  obtain ⟨e, he⟩ := exists_execution hrun
  have hturns : (planTurns counter crashPlan none (some counterCodec) ⟨0⟩ 3).map
      (fun steps ↦ steps.map fun step ↦ (faultOf step.1, (step.2.nodes : List (Option ℕ)))) =
      some [(some (.crash ⟨0⟩), [some 0]), (none, [some 1])] := by
    decide +kernel
  obtain ⟨steps, hsteps, hobserved⟩ := Option.map_eq_some_iff.mp hturns
  obtain rfl := e.steps_eq hsteps
  obtain ⟨⟨crash, mid⟩, rest, hcons, hcrash, hrest⟩ := List.map_eq_cons_iff.mp hobserved
  obtain ⟨⟨issue, last⟩, rest', rfl, hissue, hnil⟩ := List.map_eq_cons_iff.mp hrest
  obtain rfl := List.map_eq_nil_iff.mp hnil
  obtain ⟨hcrash, hmid⟩ := Prod.mk.inj hcrash
  obtain ⟨hissue, hlast⟩ := Prod.mk.inj hissue
  -- The second turn is in the crash window of the node, and it changes the node's slot.
  have hunsafe (covers : FrozenOp → Prop) : ¬ CrashSafe covers e := by
    intro hsafe
    have hdown : DownBefore e.taken ⟨0⟩ 1 := by
      refine ⟨0, Nat.one_pos,
        ⟨crash, by simp [Execution.taken, hcons], faultOf_eq_some_iff.mp hcrash⟩, ?_⟩
      intro k event hk hk'
      omega
    have hrestart : issue.kind ≠ .fault (.restart ⟨0⟩) := by
      intro hkind
      rw [faultOf_eq_some_iff.mpr hkind] at hissue
      simp at hissue
    have hspared := hsafe 1 mid issue last (by simp [Execution.states, hcons]) (by simp [hcons])
      ⟨0⟩ hdown hrestart
    have hslot := hspared.slot
    rw [hmid, hlast] at hslot
    have hcounts : (1 : ℕ) = 0 := Option.some.inj (Option.some.inj hslot)
    omega
  exact ⟨run, hrun, e, he, hunsafe _, hunsafe _⟩

end Propsim.Simulator
