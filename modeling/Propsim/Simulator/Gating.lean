import Propsim.Simulator.QueueOrder
import Propsim.Simulator.Recording

/-!
# One operation in flight for each process

A process has scheduled as many operations as it has closed, pending and queued ones together, and
at most one of its operations is pending or queued (`Gated`). So a client operation that comes out
of the queue belongs to an idle process, its Invoke keeps the history alternating, and the history
of a run is well formed when every open operation has been closed at its end
(`runDeterministic_wellFormed`).
-/

set_option autoImplicit false
set_option relaxedAutoImplicit false

namespace Propsim.Simulator

open Foundation Interchange Propsim.Core

variable {N : Node} {codec : Option (ClientCodec N)} {ops : List FrozenOp}

/-! ### Counting the operations of a process -/

/-- How many operations of a process are open. -/
def pendingFor (core : SchedCore N) (p : ProcessId) : ℕ :=
  core.pendingOps.countP fun entry ↦ entry.2.process = p

/-- The event issues an operation of a process. -/
def EventKind.issues (p : ProcessId) : EventKind N → Bool
  | .clientOp process _ => process.id = p.id
  | .deliver _ _ _ => false
  | .timer _ _ _ => false
  | .fault _ => false

/-- How many operations of a process are queued. -/
def queuedFor (core : SchedCore N) (p : ProcessId) : ℕ :=
  core.queue.toList.countP fun event ↦ event.kind.issues p

theorem queuedFor_enqueue (core : SchedCore N) (fireAt : Duration) (kind : EventKind N)
    (p : ProcessId) :
    queuedFor (core.enqueue fireAt kind) p =
      queuedFor core p + if kind.issues p then 1 else 0 := by
  have hperm : (core.enqueue fireAt kind).queue.toList.Perm
      (⟨fireAt, core.seq, kind⟩ :: core.queue.toList) := PriorityQueue.perm_push _ _
  rw [queuedFor, hperm.countP_eq, List.countP_cons, queuedFor]

theorem queuedFor_of_pop {core : SchedCore N} {event : Scheduled N}
    {queue : PriorityQueue Scheduled.key} (hpop : core.queue.pop = some (event, queue))
    (now : Duration) (p : ProcessId) :
    queuedFor core p = queuedFor { core with queue := queue, now := now } p +
      if event.kind.issues p then 1 else 0 := by
  unfold queuedFor
  rw [PriorityQueue.pop_eq_some_iff.mp hpop, List.countP_cons]

theorem pendingFor_openOp (core : SchedCore N) (process : ProcessId) (f : Function) (value : Value)
    (p : ProcessId) :
    pendingFor (core.openOp process f value).2 p =
      pendingFor core p + if process = p then 1 else 0 := by
  unfold pendingFor
  rw [pendingOps_openOp, List.countP_append, List.countP_singleton]
  simp

theorem closedFor_record (core : SchedCore N) (kind : OpKind) (process : ProcessId) (f : Function)
    (value : Value) (p : ProcessId) :
    (core.record kind process f value).closedFor p =
      core.closedFor p + if process = p ∧ kind ≠ .invoke then 1 else 0 := by
  unfold SchedCore.closedFor SchedCore.record
  rw [List.countP_append, List.countP_singleton]
  simp

theorem closedFor_openOp (core : SchedCore N) (process : ProcessId) (f : Function) (value : Value)
    (p : ProcessId) : (core.openOp process f value).2.closedFor p = core.closedFor p := by
  change (core.record .invoke process f value).closedFor p = core.closedFor p
  rw [closedFor_record]
  simp

theorem pendingOps_closeOp {core : SchedCore N} {token : OpToken} {op : PendingOp}
    (hop : core.pending token = some op) (kind : OpKind) (value : Value) :
    (core.closeOp token kind value).pendingOps =
      core.pendingOps.filter fun entry ↦ entry.1 ≠ token.id := by
  rw [SchedCore.closeOp, hop]
  rfl

theorem closedFor_closeOp {core : SchedCore N} {token : OpToken} {op : PendingOp}
    (hop : core.pending token = some op) {kind : OpKind} (value : Value) (hkind : kind ≠ .invoke)
    (p : ProcessId) :
    (core.closeOp token kind value).closedFor p =
      core.closedFor p + if op.process = p then 1 else 0 := by
  rw [SchedCore.closeOp, hop]
  refine (closedFor_record _ kind op.process op.f value p).trans ?_
  simp only [hkind, ne_eq, not_false_eq_true, and_true]
  rfl

/-- Closing a token moves at most one operation from the open to the closed ones. -/
theorem counts_closeOp {core : SchedCore N} (h : Recorded core) (token : OpToken) {kind : OpKind}
    (value : Value) (hkind : kind ≠ .invoke) (p : ProcessId) :
    (core.closeOp token kind value).closedFor p + pendingFor (core.closeOp token kind value) p =
        core.closedFor p + pendingFor core p ∧
      pendingFor (core.closeOp token kind value) p ≤ pendingFor core p := by
  cases hop : core.pending token with
  | none => simp only [SchedCore.closeOp, hop, le_refl, and_self]
  | some op =>
    have hin := mem_of_pending hop
    have hfilter : core.pendingOps.erase (token.id, op) =
        core.pendingOps.filter fun entry ↦ entry.1 ≠ token.id := by
      rw [(List.Nodup.of_map _ h.tokens).erase_eq_filter]
      refine List.filter_congr fun entry hentry ↦ ?_
      have hsame : entry = (token.id, op) ↔ entry.1 = token.id :=
        ⟨fun heq ↦ by rw [heq], fun heq ↦ List.inj_on_of_nodup_map h.tokens hentry hin heq⟩
      simp [bne, beq_eq_decide, hsame]
    have hpending : pendingFor core p = pendingFor (core.closeOp token kind value) p +
        if op.process = p then 1 else 0 := by
      unfold pendingFor
      rw [(List.perm_cons_erase hin).countP_eq, List.countP_cons, hfilter,
        pendingOps_closeOp hop]
      simp
    rw [closedFor_closeOp hop value hkind, hpending]
    omega

/-! ### The invariant -/

/-- Each process has scheduled what it has closed, pending and queued, at most one of which is
pending or queued, and the queued operations are of processes of the cluster. -/
structure Gated (scheduled : ℕ → ℕ) (core : SchedCore N) : Prop where
  recorded : Recorded core
  accounted : ∀ p < core.nodeCount.toNat, scheduled p =
    core.closedFor ⟨.ofNat p⟩ + pendingFor core ⟨.ofNat p⟩ + queuedFor core ⟨.ofNat p⟩
  one : ∀ p < core.nodeCount.toNat, pendingFor core ⟨.ofNat p⟩ + queuedFor core ⟨.ofNat p⟩ ≤ 1
  clients : ∀ event ∈ core.queue.toList, ∀ process index, event.kind = .clientOp process index →
    process.id.toNat < core.nodeCount.toNat

namespace Gated

variable {scheduled : ℕ → ℕ} {core core' : SchedCore N}

/-- Closing a token. -/
theorem closeOp (h : Gated scheduled core) (token : OpToken) {kind : OpKind} (value : Value)
    (hkind : kind ≠ .invoke) : Gated scheduled (core.closeOp token kind value) := by
  have hsame := sameQueue_closeOp core token kind value
  have hqueued (p : ProcessId) :
      queuedFor (core.closeOp token kind value) p = queuedFor core p := by
    rw [queuedFor, queuedFor, hsame.queue_eq]
  refine ⟨h.recorded.closeOp token value hkind, fun p hp ↦ ?_, fun p hp ↦ ?_, ?_⟩
  · rw [hsame.nodeCount_eq] at hp
    rw [hqueued, (counts_closeOp h.recorded token value hkind ⟨.ofNat p⟩).1]
    exact h.accounted p hp
  · rw [hsame.nodeCount_eq] at hp
    rw [hqueued]
    have hle := (counts_closeOp h.recorded token value hkind ⟨.ofNat p⟩).2
    have hone := h.one p hp
    omega
  · rw [hsame.queue_eq, hsame.nodeCount_eq]
    exact h.clients

/-- Closing several tokens. -/
theorem closeAll (h : Gated scheduled core) (tokens : List ℕ) :
    Gated scheduled (core.closeAll tokens) := by
  induction tokens generalizing core with
  | nil => exact h
  | cons token rest ih => exact ih (h.closeOp ⟨token⟩ .nil (by decide))

/-- An event that issues no operation. -/
theorem enqueue (h : Gated scheduled core) (fireAt : Duration) {kind : EventKind N}
    (hkind : ∀ process index, kind ≠ .clientOp process index) :
    Gated scheduled (core.enqueue fireAt kind) := by
  have hissues (p : ProcessId) : kind.issues p = false := by
    cases kind with
    | clientOp process index => exact absurd rfl (hkind process index)
    | deliver => rfl
    | timer => rfl
    | fault => rfl
  have hqueued (p : ProcessId) : queuedFor (core.enqueue fireAt kind) p = queuedFor core p := by
    simp [queuedFor_enqueue, hissues]
  refine ⟨h.recorded.congr rfl rfl rfl le_rfl, fun p hp ↦ ?_, fun p hp ↦ ?_, ?_⟩
  · rw [hqueued]
    exact h.accounted p hp
  · rw [hqueued]
    exact h.one p hp
  · intro event hevent process index heq
    rcases PriorityQueue.mem_push.mp hevent with rfl | hevent
    · exact absurd heq (hkind process index)
    · exact h.clients event hevent process index heq

/-- A core step. -/
theorem coreStep (h : Gated scheduled core) (hstep : CoreStep core core') :
    Gated scheduled core' := by
  cases hstep with
  | quiet => exact ⟨h.recorded.congr rfl rfl rfl le_rfl, h.accounted, h.one, h.clients⟩
  | enqueue fireAt kind _ hkind =>
    refine h.enqueue fireAt fun process index heq ↦ ?_
    rw [heq] at hkind
    exact hkind
  | close token value hkind => exact h.closeOp token value hkind

theorem coreSteps (h : Gated scheduled core) (hsteps : CoreSteps core core') :
    Gated scheduled core' :=
  hsteps.invariant (fun _ _ hgated hstep ↦ hgated.coreStep hstep) h

/-- Taking an event that issues no operation. -/
theorem take (h : Gated scheduled core) {event : Scheduled N} {queue : PriorityQueue Scheduled.key}
    (hpop : core.queue.pop = some (event, queue)) (hlater : core.now ≤ event.fireAt)
    (hkind : ∀ process index, event.kind ≠ .clientOp process index) :
    Gated scheduled { core with queue := queue, now := event.fireAt } := by
  have hissues (p : ProcessId) : event.kind.issues p = false := by
    cases hevent : event.kind with
    | clientOp process index => exact absurd hevent (hkind process index)
    | deliver => rfl
    | timer => rfl
    | fault => rfl
  have hqueued (p : ProcessId) :
      queuedFor { core with queue := queue, now := event.fireAt } p = queuedFor core p := by
    simp [queuedFor_of_pop hpop event.fireAt, hissues]
  refine ⟨h.recorded.congr rfl rfl rfl hlater, fun p hp ↦ ?_, fun p hp ↦ ?_, ?_⟩
  · rw [hqueued]
    exact h.accounted p hp
  · rw [hqueued]
    exact h.one p hp
  · intro b hb
    exact h.clients b (PriorityQueue.mem_of_mem_pop hpop hb)

/-- Taking a client operation and opening it: its process is idle. -/
theorem takeClientOp (h : Gated scheduled core) {event : Scheduled N}
    {queue : PriorityQueue Scheduled.key} (hpop : core.queue.pop = some (event, queue))
    (hlater : core.now ≤ event.fireAt) {process : NodeId} {index : ℕ}
    (hkind : event.kind = .clientOp process index) (f : Function) (value : Value) :
    Gated scheduled
      (SchedCore.openOp { core with queue := queue, now := event.fireAt }
        ⟨process.id⟩ f value).2 := by
  have hmem : event ∈ core.queue.toList := PriorityQueue.mem_of_pop hpop
  have hprocess := h.clients event hmem process index hkind
  have hissues (p : ProcessId) : event.kind.issues p = decide (process.id = p.id) := by
    rw [hkind, EventKind.issues]
  have hidle : pendingFor core ⟨process.id⟩ = 0 := by
    have hone := h.one process.id.toNat hprocess
    have hqueued := queuedFor_of_pop hpop event.fireAt ⟨process.id⟩
    rw [UInt64.ofNat_toNat] at hone
    simp only [hissues, decide_true, if_true] at hqueued
    omega
  have hrecorded : Recorded { core with queue := queue, now := event.fireAt } :=
    h.recorded.congr rfl rfl rfl hlater
  have hcounts (p : ProcessId) :
      pendingFor (SchedCore.openOp { core with queue := queue, now := event.fireAt }
          ⟨process.id⟩ f value).2 p +
        queuedFor { core with queue := queue, now := event.fireAt } p =
      pendingFor core p + queuedFor core p := by
    have hqueued := queuedFor_of_pop hpop event.fireAt p
    rw [pendingFor_openOp, hqueued, hissues]
    have hsame : (⟨process.id⟩ : ProcessId) = p ↔ process.id = p.id := by
      constructor
      · rintro rfl
        rfl
      · rintro heq
        rw [heq]
    simp only [hsame, decide_eq_true_eq]
    change pendingFor core p + _ + _ = _
    omega
  refine ⟨hrecorded.openOp _ f value fun entry hentry hsame ↦ ?_, fun p hp ↦ ?_, fun p hp ↦ ?_, ?_⟩
  · rw [pendingFor, List.countP_eq_zero] at hidle
    simpa [hsame] using hidle entry hentry
  · have hold := h.accounted p hp
    have hsum := hcounts ⟨.ofNat p⟩
    rw [closedFor_openOp]
    change _ = core.closedFor _ + _ + queuedFor { core with queue := queue, now := event.fireAt } _
    omega
  · have hold := h.one p hp
    have hsum := hcounts ⟨.ofNat p⟩
    change _ + queuedFor { core with queue := queue, now := event.fireAt } _ ≤ 1
    omega
  · intro b hb
    exact h.clients b (PriorityQueue.mem_of_mem_pop hpop hb)

end Gated

/-! ### The pump -/

/-- Pumping one process of the cluster: an operation is scheduled only when none is in flight. -/
theorem gated_pumpProcess {state next : RunState N} {p : ℕ}
    (hp : p < state.core.nodeCount.toNat) (h : Gated state.scheduled state.core)
    (hpump : pumpProcess state p = .ok next) :
    Gated next.scheduled next.core ∧ next.core.nodeCount = state.core.nodeCount := by
  unfold pumpProcess at hpump
  split at hpump
  · obtain rfl := Except.ok.inj hpump
    exact ⟨h, rfl⟩
  rename_i hbusy
  split at hpump
  · obtain rfl := Except.ok.inj hpump
    exact ⟨h, rfl⟩
  split at hpump
  · simp at hpump
  rename_i index rest _ _ fireAt _
  obtain rfl := Except.ok.inj hpump
  refine ⟨?_, rfl⟩
  have hissues (q : ℕ) (hq : q < state.core.nodeCount.toNat) :
      (EventKind.clientOp ⟨.ofNat p⟩ index : EventKind N).issues ⟨.ofNat q⟩ = decide (q = p) := by
    have hbound := state.core.nodeCount.toNat_lt
    have hinj : UInt64.ofNat p = UInt64.ofNat q ↔ q = p := by
      rw [← UInt64.toNat_inj, UInt64.toNat_ofNat_of_lt' (by simp only [UInt64.size]; omega),
        UInt64.toNat_ofNat_of_lt' (by simp only [UInt64.size]; omega), eq_comm]
    simp only [EventKind.issues, hinj]
  have hqueued (q : ℕ) (hq : q < state.core.nodeCount.toNat) :
      queuedFor (state.core.scheduleClientOp fireAt ⟨.ofNat p⟩ index) ⟨.ofNat q⟩ =
        queuedFor state.core ⟨.ofNat q⟩ + if q = p then 1 else 0 := by
    rw [SchedCore.scheduleClientOp, queuedFor_enqueue, hissues q hq]
    simp
  refine ⟨h.recorded.congr rfl rfl rfl le_rfl, fun q hq ↦ ?_, fun q hq ↦ ?_, ?_⟩
  · have hold := h.accounted q hq
    have hsum := hqueued q hq
    change _ = state.core.closedFor _ + pendingFor state.core _ +
      queuedFor (state.core.scheduleClientOp _ _ _) _
    rw [hsum]
    by_cases hqp : q = p
    · subst hqp
      simp only [Function.update_self, if_true]
      omega
    · simp only [Function.update_of_ne hqp, hqp, if_false]
      omega
  · have hold := h.accounted q hq
    have hone := h.one q hq
    have hsum := hqueued q hq
    change pendingFor state.core _ + queuedFor (state.core.scheduleClientOp _ _ _) _ ≤ 1
    rw [hsum]
    by_cases hqp : q = p
    · subst hqp
      simp only [if_true]
      omega
    · simp only [hqp, if_false]
      omega
  · intro event hevent process index' heq
    rcases PriorityQueue.mem_push.mp hevent with rfl | hevent
    · obtain ⟨rfl, -⟩ := EventKind.clientOp.inj heq
      have hbound := state.core.nodeCount.toNat_lt
      change (UInt64.ofNat p).toNat < state.core.nodeCount.toNat
      rw [UInt64.toNat_ofNat_of_lt' (by simp only [UInt64.size]; omega)]
      exact hp
    · exact h.clients event hevent process index' heq

/-- Pumping every process. -/
theorem gated_pumpClientOps {state next : RunState N} (h : Gated state.scheduled state.core)
    (hpump : pumpClientOps state = .ok next) : Gated next.scheduled next.core := by
  have hboth := foldlM_invariant
    (P := fun s : RunState N ↦
      Gated s.scheduled s.core ∧ s.core.nodeCount = state.core.nodeCount)
    (fun p hp s s' hs hturn ↦ by
      have hgated := gated_pumpProcess (hs.2 ▸ List.mem_range.mp hp) hs.1 hturn
      exact ⟨hgated.1, hgated.2.trans hs.2⟩) ⟨h, rfl⟩ hpump
  exact hboth.1

/-! ### Turns and runs -/

/-- Dispatching what a resolved event has become. -/
theorem gated_dispatch {scheduled : ℕ → ℕ} {core core' : SchedCore N}
    {nodes nodes' : List (Option N.State)} {popped : PoppedEvent N}
    (hother : (∀ process index, popped ≠ .clientOp process index) → Gated scheduled core)
    (hclient : ∀ process index f value, popped = .clientOp process index →
      Gated scheduled (core.openOp ⟨process.id⟩ f value).2)
    (h : dispatch codec ops core nodes popped = .ok (core', nodes')) : Gated scheduled core' := by
  rcases dispatch_steps h with ⟨hsteps, hne⟩ | ⟨process, index, op, f, heq, -, hsteps⟩
  · exact (hother hne).coreSteps hsteps
  · exact (hclient process index f op.op heq).coreSteps hsteps

/-- Handling an event is dispatching it, pumping, and taking a frame. -/
theorem exists_pump_of_handle {state next : RunState N} {popped : PoppedEvent N}
    (h : handle codec ops state popped = .ok next) :
    ∃ core nodes pumped, dispatch codec ops state.core state.nodes popped = .ok (core, nodes) ∧
      pumpClientOps { state with core := core, nodes := nodes } = .ok pumped ∧
      next = snapshot pumped := by
  rw [handle, except_bind_eq_ok] at h
  obtain ⟨⟨core, nodes⟩, hdispatch, h⟩ := h
  rw [except_bind_eq_ok] at h
  obtain ⟨pumped, hpump, h⟩ := h
  exact ⟨core, nodes, pumped, hdispatch, hpump, (except_pure_eq_ok.mp h).symm⟩

theorem handle_of_pump {state pumped : RunState N} {popped : PoppedEvent N} {core : SchedCore N}
    {nodes : List (Option N.State)}
    (hdispatch : dispatch codec ops state.core state.nodes popped = .ok (core, nodes))
    (hpump : pumpClientOps { state with core := core, nodes := nodes } = .ok pumped) :
    handle codec ops state popped = .ok (snapshot pumped) := by
  rw [handle, except_bind_eq_ok]
  exact ⟨(core, nodes), hdispatch, except_bind_eq_ok.mpr ⟨pumped, hpump, rfl⟩⟩

/-- Applying a fault closes operations at most. -/
theorem Gated.applyFault {scheduled : ℕ → ℕ} {core : SchedCore N} (h : Gated scheduled core)
    (action : FaultAction) : Gated scheduled (core.applyFault action).2 := by
  cases action with
  | partition a b => exact ⟨h.recorded.congr rfl rfl rfl le_rfl, h.accounted, h.one, h.clients⟩
  | healAll => exact ⟨h.recorded.congr rfl rfl rfl le_rfl, h.accounted, h.one, h.clients⟩
  | crash n =>
    refine Gated.closeAll ?_ _
    split_ifs
    · exact h
    · exact ⟨h.recorded.congr rfl rfl rfl le_rfl, h.accounted, h.one, h.clients⟩
  | restart n => exact ⟨h.recorded.congr rfl rfl rfl le_rfl, h.accounted, h.one, h.clients⟩

/-- Taking an event and dispatching it. Assumes: the event is not before the current time. -/
theorem Gated.fire {scheduled : ℕ → ℕ} {core resolved core' : SchedCore N} {event : Scheduled N}
    {queue : PriorityQueue Scheduled.key} {popped : PoppedEvent N}
    {nodes nodes' : List (Option N.State)} (h : Gated scheduled core)
    (hpop : core.queue.pop = some (event, queue)) (hlater : core.now ≤ event.fireAt)
    (hresolve : SchedCore.resolve { core with queue := queue } event = (some popped, resolved))
    (hdispatch : dispatch codec ops resolved nodes popped = .ok (core', nodes')) :
    Gated scheduled core' := by
  have htake := h.take hpop hlater
  cases resolves_of_resolve hresolve with
  | deliver hkind _ =>
    exact gated_dispatch (fun _ ↦ htake (by simp [hkind])) (by simp) hdispatch
  | timer hkind _ _ =>
    exact gated_dispatch (fun _ ↦ htake (by simp [hkind])) (by simp) hdispatch
  | @clientOp process index hkind =>
    refine gated_dispatch (fun hne ↦ absurd rfl (hne process index))
      (fun process' index' f value heq ↦ ?_) hdispatch
    obtain ⟨rfl, rfl⟩ := PoppedEvent.clientOp.inj heq
    exact h.takeClientOp hpop hlater hkind f value
  | fault hkind =>
    exact gated_dispatch (fun _ ↦ (htake (by simp [hkind])).applyFault _) (by simp) hdispatch

/-- The event of a turn is not before the current time. Assumes: no queued event is. -/
theorem Turn.now_le {state next : RunState N} {event : Scheduled N}
    (h : Turn codec ops state event next)
    (hlater : ∀ b ∈ state.core.queue.toList, state.core.now ≤ b.fireAt) :
    state.core.now ≤ event.fireAt := by
  obtain ⟨queue, hpop, -⟩ := h.pop_eq
  exact hlater event (PriorityQueue.mem_of_pop hpop)

/-- A turn keeps the invariant. Assumes: no queued event is before the current time. -/
theorem Turn.gated {state next : RunState N} {event : Scheduled N}
    (h : Turn codec ops state event next) (hlater : ∀ b ∈ state.core.queue.toList,
      state.core.now ≤ b.fireAt) (hstate : Gated state.scheduled state.core) :
    Gated next.scheduled next.core := by
  have hevent := h.now_le hlater
  cases h with
  | skip hpop hbelow hresolve =>
    cases resolves_of_resolve hresolve with
    | skipped hclient hfault => exact hstate.take hpop hevent hclient
  | fire hpop hbelow hresolve hhandle =>
    obtain ⟨core, nodes, pumped, hdispatch, hpump, rfl⟩ := exists_pump_of_handle hhandle
    have hdispatched := hstate.fire hpop hevent hresolve hdispatch
    have hpumped : Gated pumped.scheduled pumped.core := gated_pumpClientOps hdispatched hpump
    exact hpumped

/-- A loop keeps the invariant, and its end keeps the history. -/
theorem Loop.recorded {taken : List (Scheduled N)} {state final : RunState N}
    {steps : List (Scheduled N × RunState N)} (h : Loop codec ops state steps final)
    (hqueue : QueueInv taken state.core) (hnow : state.core.now ≤ state.core.horizon)
    (hstate : Gated state.scheduled state.core) : Recorded final.core := by
  induction h generalizing taken with
  | stop hstops =>
    cases hstops with
    | drained hpop => exact hstate.recorded
    | horizon hpop hpast => exact hstate.recorded.congr rfl rfl rfl hnow
  | turn hturn _ ih =>
    refine ih (hturn.queueInv hqueue) ?_ (hturn.gated hqueue.later hstate)
    obtain ⟨queue, hpop, hbelow⟩ := hturn.pop_eq
    rw [hturn.now_eq, hturn.horizon_eq]
    exact hbelow.le

/-- Starting the nodes, one after the other. -/
def startNodes (codec : Option (ClientCodec N)) (prepared : SchedCore N) :
    Except Halt (SchedCore N × List (Option N.State)) :=
  (List.range prepared.nodeCount.toNat).foldlM
    (fun state id ↦ dispatchStart codec state.1 state.2 ⟨.ofNat id⟩)
    (prepared, List.replicate prepared.nodeCount.toNat (some N.default))

/-- The first state of a run, before its operations are pumped. -/
def unpumped (ops : List FrozenOp) (count : UInt64) (core : SchedCore N)
    (nodes : List (Option N.State)) : RunState N :=
  snapshot ⟨core, nodes, groupOps ops count.toNat, fun _ ↦ 0, []⟩

/-- The operations of a process are operations of the stream. -/
theorem lt_of_mem_groupOps {nodeCount p index : ℕ} (h : index ∈ groupOps ops nodeCount p) :
    index < ops.length := by
  obtain ⟨entry, hentry, rfl⟩ := List.mem_map.mp h
  have hlookup := List.mem_zipIdx_iff_getElem?.mp (List.mem_filter.mp hentry).1
  exact (List.getElem?_eq_some_iff.mp hlookup).1

theorem startRun_eq_ok {prepared : SchedCore N} {started : RunState N} :
    startRun codec ops prepared = .ok started ↔
      ∃ core nodes, startNodes codec prepared = .ok (core, nodes) ∧
        pumpClientOps (unpumped ops prepared.nodeCount core nodes) = .ok started := by
  rw [startRun, except_bind_eq_ok, Prod.exists]
  exact Iff.rfl

theorem startNodes_steps {prepared core : SchedCore N} {nodes : List (Option N.State)}
    (h : startNodes codec prepared = .ok (core, nodes)) : CoreSteps prepared core :=
  foldlM_invariant (P := fun s : SchedCore N × List (Option N.State) ↦ CoreSteps prepared s.1)
    (fun _ _ _ _ hs hdispatch ↦ hs.trans (runCallback_eq_ok hdispatch).1) (.refl prepared) h

theorem gated_prepared {data : PlanData} {seed : Seed} {prepared : SchedCore N}
    (hprepare : prepareCore N data seed = .ok prepared) : Gated (fun _ ↦ 0) prepared := by
  refine prepared_core (fun core fireAt action h ↦ h.enqueue fireAt (by simp))
    (fun core model h ↦ ⟨h.recorded.congr rfl rfl rfl le_rfl, h.accounted, h.one, h.clients⟩)
    hprepare fun horizon _ ↦ ?_
  exact ⟨.fresh rfl rfl, by intro p _; rfl, by intro p _; exact Nat.zero_le _,
    by simp [SchedCore.new]⟩

/-- The invariant holds when the loop of a run starts. -/
theorem gated_started {data : PlanData} {seed : Seed} {prepared : SchedCore N}
    {started : RunState N} (hprepare : prepareCore N data seed = .ok prepared)
    (hstart : startRun codec ops prepared = .ok started) :
    Gated started.scheduled started.core := by
  obtain ⟨core, nodes, hnodes, hpump⟩ := startRun_eq_ok.mp hstart
  have hunpumped := (gated_prepared hprepare).coreSteps (startNodes_steps hnodes)
  refine gated_pumpClientOps ?_ hpump
  exact hunpumped

/-! ### The end of a run -/

/-- What is still in the table after closing tokens was in it before, under another token. -/
theorem mem_pendingOps_closeAll {core : SchedCore N} {tokens : List ℕ} {entry : ℕ × PendingOp}
    (h : entry ∈ (core.closeAll tokens).pendingOps) :
    entry ∈ core.pendingOps ∧ entry.1 ∉ tokens := by
  induction tokens generalizing core with
  | nil => exact ⟨h, by simp⟩
  | cons token rest ih =>
    change entry ∈ ((core.closeOp ⟨token⟩ .info .nil).closeAll rest).pendingOps at h
    obtain ⟨hin, hrest⟩ := ih h
    have hclosed : entry ∈ core.pendingOps ∧ entry.1 ≠ token := by
      cases hop : core.pending ⟨token⟩ with
      | none =>
        simp only [SchedCore.closeOp, hop] at hin
        rw [SchedCore.pending, Option.map_eq_none_iff, List.find?_eq_none] at hop
        exact ⟨hin, by simpa using hop entry hin⟩
      | some op =>
        rw [pendingOps_closeOp hop, List.mem_filter] at hin
        exact ⟨hin.1, by simpa using hin.2⟩
    refine ⟨hclosed.1, fun hmem ↦ ?_⟩
    rcases List.mem_cons.mp hmem with heq | hmem
    · exact hclosed.2 heq
    · exact hrest hmem

/-- Closing every open operation leaves a well-formed history. -/
theorem Recorded.wellFormed {core : SchedCore N} (h : Recorded core) :
    WellFormed core.forceClosePending.history.entries := by
  have hclosed : Recorded core.forceClosePending := h.closeAll _
  refine ⟨hclosed.index_eq, hclosed.times, hclosed.alternates, fun p ↦ ?_, hclosed.function_eq⟩
  refine (hclosed.idle_iff p).mpr fun entry hentry ↦ ?_
  obtain ⟨hin, hnot⟩ := mem_pendingOps_closeAll hentry
  exact absurd (List.mem_map_of_mem hin) hnot

section Executions

variable {data : PlanData} {workload : Option Strategy} {seed : Seed}

/-- The history of every execution is well formed. -/
theorem Execution.wellFormed (e : Execution N data workload codec seed) :
    WellFormed e.result.history.entries := by
  obtain ⟨hqueue, hnow⟩ := e.started_queueInv
  exact (e.loop.recorded hqueue hnow (gated_started e.prepare_eq e.start_eq)).wellFormed

/-- The history of every run whose loop ends is well formed, so every Invoke has exactly one
completion and every completion exactly one Invoke, of the same process and with the same `:f`. -/
theorem runDeterministic_wellFormed {fuel : ℕ} {nodeDef : Option NodeDef} {run : TypedRun N}
    (h : runDeterministic fuel data nodeDef workload codec seed = .ok (.ok run)) :
    WellFormed run.history.entries ∧
    (∀ i inv, run.history.entries[i]? = some inv → inv.kind = .invoke →
      ∃! j : ℕ, ∃ c, Completes run.history.entries ⟨i, j⟩ inv c ∧
        c.process = inv.process ∧ c.f = inv.f) ∧
    ∀ j c, run.history.entries[j]? = some c → c.kind ≠ .invoke →
      ∃! i : ℕ, ∃ inv, Completes run.history.entries ⟨i, j⟩ inv c ∧
        inv.process = c.process ∧ inv.f = c.f := by
  obtain ⟨e, rfl⟩ := exists_execution h
  have hwell := e.wellFormed
  exact ⟨hwell, fun i inv ↦ hwell.existsUnique_completion, fun j c ↦ hwell.existsUnique_invoke⟩

end Executions

/-- The history of a run with a crash, a restart and two clients is well formed. -/
theorem counter_wellFormed :
    ∃ run, runDeterministic 8 counterScript none none (some counterCodec) ⟨0⟩ = .ok (.ok run) ∧
      WellFormed run.history.entries := by
  obtain ⟨run, hrun⟩ := exists_run_of_isSome (N := counter)
    (x := runDeterministic 8 counterScript none none (some counterCodec) ⟨0⟩) (by decide +kernel)
  exact ⟨run, hrun, (runDeterministic_wellFormed hrun).1⟩

end Propsim.Simulator
