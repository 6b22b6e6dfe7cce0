import Propsim.Simulator.CrashWindow
import Propsim.Simulator.Drive

/-!
# The operations that a run issues

The operations of a process come out of its part of the stream in stream order: those issued, those
queued and those not yet scheduled make up its part at every moment (`Streamed`). The operations
that are recovered from the recorded Invokes are those of the client operation events that were
taken, in the order in which they were taken (`Execution.collectOps_eq`).
-/

set_option autoImplicit false
set_option relaxedAutoImplicit false

namespace Propsim.Simulator

open Foundation Interchange Propsim.Core

variable {N : Node} {codec : Option (ClientCodec N)} {ops : List FrozenOp}

/-! ### The operations of a process -/

/-- The index of the operation of a process that an event issues. -/
def EventKind.issuedBy (p : ProcessId) : EventKind N → Option ℕ
  | .clientOp process index => if process.id = p.id then some index else none
  | .deliver _ _ _ => none
  | .timer _ _ _ => none
  | .fault _ => none

/-- The operations of a process that events issue, as indices. -/
def issuedBy (p : ProcessId) (events : List (Scheduled N)) : List ℕ :=
  events.filterMap fun event ↦ event.kind.issuedBy p

theorem EventKind.isSome_issuedBy (p : ProcessId) (kind : EventKind N) :
    (kind.issuedBy p).isSome = kind.issues p := by
  cases kind with
  | clientOp process index =>
    simp only [EventKind.issuedBy, EventKind.issues]
    split_ifs with hsame
    · simp [hsame]
    · simp [hsame]
  | deliver => rfl
  | timer => rfl
  | fault => rfl

theorem EventKind.issuedBy_of_not_clientOp {kind : EventKind N}
    (h : ∀ process index, kind ≠ .clientOp process index) (p : ProcessId) :
    kind.issuedBy p = none := by
  cases kind with
  | clientOp process index => exact absurd rfl (h process index)
  | deliver => rfl
  | timer => rfl
  | fault => rfl

theorem length_issuedBy_queue (core : SchedCore N) (p : ProcessId) :
    (issuedBy p core.queue.toList).length = queuedFor core p := by
  rw [issuedBy, List.length_filterMap_eq_countP, queuedFor]
  simp only [EventKind.isSome_issuedBy]

/-- An event of another kind, or of another process, leaves the queued operations of a process
alone. -/
theorem issuedBy_enqueue_of_none (core : SchedCore N) (fireAt : Duration) {kind : EventKind N}
    {p : ProcessId} (h : kind.issuedBy p = none) :
    issuedBy p (core.enqueue fireAt kind).queue.toList = issuedBy p core.queue.toList :=
  core.queue.filterMap_push_of_none h

/-- Scheduling an operation of a process that has none queued. -/
theorem issuedBy_enqueue_self {core : SchedCore N} (fireAt : Duration) {kind : EventKind N}
    {p : ProcessId} {index : ℕ} (h : kind.issuedBy p = some index) (hidle : queuedFor core p = 0) :
    issuedBy p (core.enqueue fireAt kind).queue.toList = [index] := by
  have hnil : issuedBy p core.queue.toList = [] := by
    rw [← List.length_eq_zero_iff, length_issuedBy_queue, hidle]
  have hperm : (issuedBy p (core.enqueue fireAt kind).queue.toList).Perm
      (issuedBy p (⟨fireAt, core.seq, kind⟩ :: core.queue.toList)) :=
    (PriorityQueue.perm_push _ _).filterMap _
  have hcons : issuedBy p (⟨fireAt, core.seq, kind⟩ :: core.queue.toList) = [index] := by
    rw [issuedBy, List.filterMap_cons, h]
    exact congrArg _ hnil
  rw [hcons] at hperm
  exact List.perm_singleton.mp hperm

/-- Core steps schedule no client operation. -/
theorem CoreSteps.issuedBy_eq {core core' : SchedCore N} (h : CoreSteps core core')
    (p : ProcessId) : issuedBy p core'.queue.toList = issuedBy p core.queue.toList := by
  refine h.invariant (P := fun c ↦ issuedBy p c.queue.toList = issuedBy p core.queue.toList)
    (fun c c' hc hstep ↦ ?_) rfl
  cases hstep with
  | quiet => exact hc
  | enqueue fireAt kind _ hkind =>
    rw [← hc]
    refine issuedBy_enqueue_of_none c fireAt (EventKind.issuedBy_of_not_clientOp ?_ p)
    rintro process index rfl
    exact hkind
  | close token value _ =>
    rw [(sameQueue_closeOp c token _ value).queue_eq]
    exact hc

theorem issuedBy_dispatch {core core' : SchedCore N} {nodes nodes' : List (Option N.State)}
    {popped : PoppedEvent N} (h : dispatch codec ops core nodes popped = .ok (core', nodes'))
    (p : ProcessId) : issuedBy p core'.queue.toList = issuedBy p core.queue.toList := by
  rcases dispatch_steps h with ⟨hsteps, -⟩ | ⟨process, index, op, f, -, -, hsteps⟩
  · exact hsteps.issuedBy_eq p
  · exact hsteps.issuedBy_eq p

/-- The operations that a process has issued, that are queued and that are not yet scheduled are its
part of the stream. -/
def Streamed (ops : List FrozenOp) (taken : List (Scheduled N)) (state : RunState N) : Prop :=
  ∀ p < state.core.nodeCount.toNat,
    issuedBy ⟨.ofNat p⟩ taken ++ issuedBy ⟨.ofNat p⟩ state.core.queue.toList ++
      state.perProcess p = groupOps ops state.core.nodeCount.toNat p

/-- Process numbers below a node count are distinct as process ids. -/
theorem ofNat_inj_of_lt {count : UInt64} {p q : ℕ} (hp : p < count.toNat) (hq : q < count.toNat) :
    UInt64.ofNat p = UInt64.ofNat q ↔ p = q := by
  have hbound := count.toNat_lt
  rw [← UInt64.toNat_inj, UInt64.toNat_ofNat_of_lt' (by simp only [UInt64.size]; omega),
    UInt64.toNat_ofNat_of_lt' (by simp only [UInt64.size]; omega)]

theorem toNat_ofNat_of_lt {count : UInt64} {p : ℕ} (hp : p < count.toNat) :
    (UInt64.ofNat p).toNat = p := by
  have hbound := count.toNat_lt
  exact UInt64.toNat_ofNat_of_lt' (by simp only [UInt64.size]; omega)

/-- A process that has scheduled no more than it has closed has nothing in flight. -/
theorem Gated.idle {scheduled : ℕ → ℕ} {core : SchedCore N} (h : Gated scheduled core) {p : ℕ}
    (hp : p < core.nodeCount.toNat) (hfree : ¬ core.closedFor ⟨.ofNat p⟩ < scheduled p) :
    pendingFor core ⟨.ofNat p⟩ = 0 ∧ queuedFor core ⟨.ofNat p⟩ = 0 := by
  have hsum := h.accounted p hp
  omega

theorem streamed_pumpProcess {taken : List (Scheduled N)} {state next : RunState N} {p : ℕ}
    (hp : p < state.core.nodeCount.toNat) (hgated : Gated state.scheduled state.core)
    (h : Streamed ops taken state) (hpump : pumpProcess state p = .ok next) :
    Streamed ops taken next := by
  cases pumps_of_pumpProcess hpump with
  | busy => exact h
  | drained => exact h
  | @issue index rest fireAt hfree hstream hsum =>
    intro q hq
    have hold := h q hq
    by_cases hqp : q = p
    · subst hqp
      have hidle := (hgated.idle hp hfree).2
      have hnil : issuedBy ⟨.ofNat q⟩ state.core.queue.toList = [] := by
        rw [← List.length_eq_zero_iff, length_issuedBy_queue, hidle]
      have hself : issuedBy ⟨.ofNat q⟩
          (state.core.scheduleClientOp fireAt ⟨.ofNat q⟩ index).queue.toList = [index] :=
        issuedBy_enqueue_self fireAt (by simp [EventKind.issuedBy]) hidle
      rw [hnil, hstream, List.append_nil] at hold
      change _ ++ issuedBy _ (state.core.scheduleClientOp _ _ _).queue.toList ++
        Function.update state.perProcess q rest q = _
      rw [hself, Function.update_self, List.append_assoc, List.singleton_append]
      exact hold
    · have hother :
          (EventKind.clientOp ⟨.ofNat p⟩ index : EventKind N).issuedBy ⟨.ofNat q⟩ = none :=
        if_neg (by
          change ¬ UInt64.ofNat p = UInt64.ofNat q
          rw [ofNat_inj_of_lt hp hq]
          exact fun heq ↦ hqp heq.symm)
      change _ ++ issuedBy _ (state.core.scheduleClientOp _ _ _).queue.toList ++
        Function.update state.perProcess p rest q = _
      rw [SchedCore.scheduleClientOp, issuedBy_enqueue_of_none _ _ hother,
        Function.update_of_ne hqp]
      exact hold

theorem Pumps.nodeCount_eq {state next : RunState N} {p : ℕ} (h : Pumps state p next) :
    next.core.nodeCount = state.core.nodeCount := by
  cases h with
  | busy => rfl
  | drained => rfl
  | issue => rfl

theorem streamed_pumpClientOps {taken : List (Scheduled N)} {state next : RunState N}
    (hgated : Gated state.scheduled state.core) (h : Streamed ops taken state)
    (hpump : pumpClientOps state = .ok next) : Streamed ops taken next := by
  have hall := foldlM_invariant
    (P := fun s : RunState N ↦ (Gated s.scheduled s.core ∧ Streamed ops taken s) ∧
      s.core.nodeCount = state.core.nodeCount)
    (fun p hp s s' ⟨⟨hs, hstreamed⟩, hcount⟩ hturn ↦ by
      have hlt := hcount ▸ List.mem_range.mp hp
      exact ⟨⟨(gated_pumpProcess hlt hs hturn).1, streamed_pumpProcess hlt hs hstreamed hturn⟩,
        (pumps_of_pumpProcess hturn).nodeCount_eq.trans hcount⟩)
    ⟨⟨hgated, h⟩, rfl⟩ hpump
  exact hall.1.2

/-- The event of a turn moves from the queued to the issued operations. -/
theorem issuedBy_append_of_pop {core : SchedCore N} {event : Scheduled N}
    {queue : PriorityQueue Scheduled.key} (hpop : core.queue.pop = some (event, queue))
    (p : ProcessId) (taken : List (Scheduled N)) :
    issuedBy p (taken ++ [event]) ++ issuedBy p queue.toList =
      issuedBy p taken ++ issuedBy p core.queue.toList := by
  rw [PriorityQueue.pop_eq_some_iff.mp hpop]
  simp only [issuedBy, ← List.filterMap_append, List.append_assoc, List.singleton_append]

/-- What a turn does to the queue and the bookkeeping before it pumps. -/
theorem Turn.streamed {taken : List (Scheduled N)} {state next : RunState N} {event : Scheduled N}
    (h : Turn codec ops state event next)
    (hlater : ∀ b ∈ state.core.queue.toList, state.core.now ≤ b.fireAt)
    (hgated : Gated state.scheduled state.core) (hstate : Streamed ops taken state) :
    Streamed ops (taken ++ [event]) next := by
  have hevent := h.now_le hlater
  cases h with
  | @skip queue core hpop hbelow hresolve =>
    intro p hp
    have hsame := sameQueue_resolve hresolve
    change _ ++ issuedBy _ core.queue.toList ++ _ = groupOps ops core.nodeCount.toNat p
    rw [hsame.queue_eq, hsame.nodeCount_eq, issuedBy_append_of_pop hpop]
    exact hstate p (hsame.nodeCount_eq ▸ hp)
  | @fire queue core popped next hpop hbelow hresolve hhandle =>
    obtain ⟨core', nodes, pumped, hdispatch, hpump, rfl⟩ := exists_pump_of_handle hhandle
    have hdispatched := hgated.fire hpop hevent hresolve hdispatch
    have hcount : core'.nodeCount = state.core.nodeCount :=
      (queueProperty_nodeCount _).dispatch hdispatch (sameQueue_resolve hresolve).nodeCount_eq
    suffices hpumped : Streamed ops (taken ++ [event]) pumped from hpumped
    refine streamed_pumpClientOps hdispatched (fun p hp ↦ ?_) hpump
    change _ ++ issuedBy _ core'.queue.toList ++ _ = groupOps ops core'.nodeCount.toNat p
    rw [issuedBy_dispatch hdispatch, (sameQueue_resolve hresolve).queue_eq, hcount,
      issuedBy_append_of_pop hpop]
    exact hstate p (hcount ▸ hp)

/-- Before the first operations are pumped, every process has its whole part of the stream left. -/
theorem streamed_unpumped (ops : List FrozenOp) {data : PlanData} {seed : Seed}
    {prepared core : SchedCore N} {nodes : List (Option N.State)}
    (hprepare : prepareCore N data seed = .ok prepared)
    (hnodes : startNodes codec prepared = .ok (core, nodes)) :
    core.nodeCount = prepared.nodeCount ∧
      (∀ p < core.nodeCount.toNat, queuedFor core ⟨.ofNat p⟩ = 0) ∧
      Streamed ops [] (unpumped ops prepared.nodeCount core nodes) := by
  have hsteps := startNodes_steps hnodes
  have hcount := (queueProperty_nodeCount prepared.nodeCount).coreSteps hsteps rfl
  have hqueued (p : ℕ) (hp : p < core.nodeCount.toNat) : queuedFor core ⟨.ofNat p⟩ = 0 := by
    have hsum := ((gated_prepared hprepare).coreSteps hsteps).accounted p hp
    omega
  refine ⟨hcount, hqueued, fun p hp ↦ ?_⟩
  have hnil : issuedBy ⟨.ofNat p⟩ core.queue.toList = [] := by
    rw [← List.length_eq_zero_iff, length_issuedBy_queue, hqueued p hp]
  change [] ++ issuedBy _ core.queue.toList ++ groupOps ops prepared.nodeCount.toNat p =
    groupOps ops core.nodeCount.toNat p
  rw [hnil, hcount]
  rfl

theorem streamed_started {data : PlanData} {seed : Seed} {prepared : SchedCore N}
    {started : RunState N} (hprepare : prepareCore N data seed = .ok prepared)
    (hstart : startRun codec ops prepared = .ok started) : Streamed ops [] started := by
  obtain ⟨core, nodes, hnodes, hpump⟩ := startRun_eq_ok.mp hstart
  have hgated : Gated (fun _ ↦ 0) core :=
    (gated_prepared hprepare).coreSteps (startNodes_steps hnodes)
  obtain ⟨-, -, hstreamed⟩ := streamed_unpumped ops hprepare hnodes
  exact streamed_pumpClientOps hgated hstreamed hpump

/-! ### The operations of an execution -/

/-- What every turn keeps holds after each prefix of the turns of a loop. -/
theorem Loop.streamed {taken : List (Scheduled N)} {state final : RunState N}
    {steps : List (Scheduled N × RunState N)} (h : Loop codec ops state steps final)
    (hqueue : QueueInv taken state.core) (hgated : Gated state.scheduled state.core)
    (hstate : Streamed ops taken state) :
    Gated (lastState state steps).scheduled (lastState state steps).core ∧
      Streamed ops (taken ++ steps.map (·.1)) (lastState state steps) := by
  induction h generalizing taken with
  | stop => simpa [lastState_nil] using ⟨hgated, hstate⟩
  | turn hturn _ ih =>
    rw [lastState_cons]
    simpa using ih (hturn.queueInv hqueue) (hturn.gated hqueue.later hgated)
      (hturn.streamed hqueue.later hgated hstate)

/-! ### The recorded Invokes -/

/-- The operations of the recorded Invokes. -/
def invoked (core : SchedCore N) : List FrozenOp :=
  (core.history.entries.filter fun e ↦ e.kind = .invoke).map fun e ↦ .new ⟨e.process.id⟩ e.value

/-- The operation that an event issues, as it is recorded. -/
def EventKind.issuedOp (ops : List FrozenOp) : EventKind N → Option FrozenOp
  | .clientOp process index => ops[index]?.map fun op ↦ .new process op.op
  | .deliver _ _ _ => none
  | .timer _ _ _ => none
  | .fault _ => none

theorem invoked_closeOp (core : SchedCore N) (token : OpToken) {kind : OpKind} (value : Value)
    (hkind : kind ≠ .invoke) : invoked (core.closeOp token kind value) = invoked core := by
  cases hop : core.pending token with
  | none => rw [SchedCore.closeOp, hop]
  | some op =>
    rw [SchedCore.closeOp, hop]
    change ((core.history.entries ++ [_]).filter _).map _ = _
    rw [List.filter_append, List.filter_singleton]
    simp [hkind, invoked]

theorem invoked_openOp (core : SchedCore N) (process : ProcessId) (f : Function) (value : Value) :
    invoked (core.openOp process f value).2 = invoked core ++ [.new ⟨process.id⟩ value] := by
  change ((core.history.entries ++ [_]).filter _).map _ = _
  rw [List.filter_append, List.map_append]
  rfl

theorem invoked_closeAll (core : SchedCore N) (tokens : List ℕ) :
    invoked (core.closeAll tokens) = invoked core := by
  induction tokens generalizing core with
  | nil => rfl
  | cons token rest ih => exact (ih _).trans (invoked_closeOp core ⟨token⟩ .nil (by decide))

theorem CoreSteps.invoked_eq {core core' : SchedCore N} (h : CoreSteps core core') :
    invoked core' = invoked core := by
  refine h.invariant (P := fun c ↦ invoked c = invoked core) (fun c c' hc hstep ↦ ?_) rfl
  cases hstep with
  | quiet => exact hc
  | enqueue => exact hc
  | close token value hkind => exact (invoked_closeOp c token value hkind).trans hc

theorem invoked_applyFault (core : SchedCore N) (action : FaultAction) :
    invoked (core.applyFault action).2 = invoked core := by
  cases action with
  | partition a b => rfl
  | healAll => rfl
  | crash n =>
    refine (invoked_closeAll _ _).trans ?_
    split_ifs <;> rfl
  | restart n => rfl

theorem invoked_handle {state next : RunState N} {popped : PoppedEvent N}
    (h : handle codec ops state popped = .ok next) :
    ((∀ process index, popped ≠ .clientOp process index) ∧
        invoked next.core = invoked state.core) ∨
      ∃ process index op, popped = .clientOp process index ∧ ops[index]? = some op ∧
        invoked next.core = invoked state.core ++ [.new process op.op] := by
  obtain ⟨core, nodes, hdispatch, -, hcore⟩ := handle_eq_ok h
  have hsame : invoked next.core = invoked core := by rw [hcore]; rfl
  rcases dispatch_steps hdispatch with ⟨hsteps, hne⟩ | ⟨process, index, op, f, heq, hop, hsteps⟩
  · exact Or.inl ⟨hne, hsame.trans hsteps.invoked_eq⟩
  · refine Or.inr ⟨process, index, op, heq, hop, ?_⟩
    rw [hsame, hsteps.invoked_eq, invoked_openOp]

theorem Resolves.clientOp_iff {core core' : SchedCore N} {event : Scheduled N}
    {popped : Option (PoppedEvent N)} (h : Resolves core event popped core') (process : NodeId)
    (index : ℕ) :
    event.kind = .clientOp process index ↔ popped = some (.clientOp process index) := by
  cases h with
  | skipped hclient _ => simp [hclient process index]
  | deliver hkind _ => simp [hkind]
  | timer hkind _ _ => simp [hkind]
  | clientOp hkind => simp [hkind]
  | fault hkind => simp [hkind]

theorem Resolves.invoked_eq {core core' : SchedCore N} {event : Scheduled N}
    {popped : Option (PoppedEvent N)} (h : Resolves core event popped core') :
    invoked core' = invoked core := by
  cases h with
  | skipped => rfl
  | deliver => rfl
  | timer => rfl
  | clientOp => rfl
  | fault => exact invoked_applyFault _ _

/-- The position in the stream of the operation that an event issues. -/
def EventKind.opIndex : EventKind N → Option ℕ
  | .clientOp _ index => some index
  | .deliver _ _ _ => none
  | .timer _ _ _ => none
  | .fault _ => none

theorem exists_kind_of_opIndex {kind : EventKind N} {index : ℕ} (h : kind.opIndex = some index) :
    ∃ process, kind = .clientOp process index := by
  cases kind with
  | clientOp process index' => exact ⟨process, congrArg _ (Option.some.inj h)⟩
  | deliver => cases h
  | timer => cases h
  | fault => cases h

theorem EventKind.issuedOp_of_not_clientOp {kind : EventKind N}
    (h : ∀ process index, kind ≠ .clientOp process index) : kind.issuedOp ops = none := by
  cases kind with
  | clientOp process index => exact absurd rfl (h process index)
  | deliver => rfl
  | timer => rfl
  | fault => rfl

/-- A turn records the Invoke of the operation that its event issues, and no other. -/
theorem Turn.invoked_eq {state next : RunState N} {event : Scheduled N}
    (h : Turn codec ops state event next) :
    invoked next.core = invoked state.core ++ (event.kind.issuedOp ops).toList ∧
      ∀ process index, event.kind = .clientOp process index → ∃ op, ops[index]? = some op := by
  cases h with
  | skip hpop hbelow hresolve =>
    have hspec := resolves_of_resolve hresolve
    have hclient (process : NodeId) (index : ℕ) : event.kind ≠ .clientOp process index := by
      simp [hspec.clientOp_iff process index]
    rw [EventKind.issuedOp_of_not_clientOp hclient, Option.toList_none, List.append_nil]
    exact ⟨hspec.invoked_eq, fun process index hkind ↦ absurd hkind (hclient process index)⟩
  | fire hpop hbelow hresolve hhandle =>
    have hspec := resolves_of_resolve hresolve
    have hresolved := hspec.invoked_eq
    rcases invoked_handle hhandle with ⟨hne, heq⟩ | ⟨process, index, op, rfl, hop, heq⟩
    · have hclient (process : NodeId) (index : ℕ) : event.kind ≠ .clientOp process index := by
        simp [hspec.clientOp_iff process index, hne]
      rw [EventKind.issuedOp_of_not_clientOp hclient, Option.toList_none, List.append_nil]
      exact ⟨heq.trans hresolved, fun process index hkind ↦ absurd hkind (hclient process index)⟩
    · have hkind := (hspec.clientOp_iff process index).mpr rfl
      refine ⟨?_, fun process' index' hkind' ↦ ?_⟩
      · rw [hkind, EventKind.issuedOp, hop, Option.map_some, Option.toList_some]
        exact heq.trans (congrArg (· ++ _) hresolved)
      · obtain ⟨rfl, rfl⟩ := EventKind.clientOp.inj (hkind.symm.trans hkind')
        exact ⟨op, hop⟩

/-- The operations that events issue, as they are recorded. -/
def issuedOps (ops : List FrozenOp) (events : List (Scheduled N)) : List FrozenOp :=
  events.filterMap fun event ↦ event.kind.issuedOp ops

theorem Loop.invoked_eq {state final : RunState N} {steps : List (Scheduled N × RunState N)}
    (h : Loop codec ops state steps final) :
    invoked final.core = invoked state.core ++ issuedOps ops (steps.map (·.1)) := by
  induction h with
  | stop hstops =>
    cases hstops with
    | drained => simp [issuedOps]
    | horizon => exact (List.append_nil _).symm
  | @turn state next final event steps hturn _ ih =>
    rw [ih, hturn.invoked_eq.1, List.append_assoc, issuedOps, issuedOps, List.map_cons,
      List.filterMap_cons]
    cases event.kind.issuedOp ops with
    | none => rfl
    | some op => rfl

section Executions

variable {data : PlanData} {workload : Option Strategy} {seed : Seed}

/-- Nothing is recorded before the loop starts. -/
theorem Execution.invoked_started (e : Execution N data workload codec seed) :
    invoked e.started.core = [] := by
  obtain ⟨core, nodes, hnodes, hpump⟩ := startRun_eq_ok.mp e.start_eq
  have hpumped : invoked e.started.core = invoked core := by
    rw [(pumpClientOps_frame hpump).2]
    rfl
  rw [hpumped, (startNodes_steps hnodes).invoked_eq]
  exact prepared_core (P := fun core ↦ invoked core = []) (fun _ _ _ h ↦ h) (fun _ _ h ↦ h)
    e.prepare_eq fun _ _ ↦ rfl

/-- The operations recovered from the Invokes of a run are those that it issued. -/
theorem Execution.collectOps_eq (e : Execution N data workload codec seed) :
    collectOps e.result = issuedOps (resolveOps data workload seed) e.taken := by
  have hfinal : collectOps e.result = invoked e.final.core := invoked_closeAll _ _
  rw [hfinal, e.loop.invoked_eq, e.invoked_started, List.nil_append]
  rfl

end Executions

end Propsim.Simulator
