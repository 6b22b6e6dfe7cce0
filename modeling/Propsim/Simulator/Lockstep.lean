import Propsim.Simulator.StreamOrder
import Propsim.Simulator.QueueView

/-!
# Two runs in step

A run is repeated on another stream that holds, for each process, the operations that it issued and
no more. The two runs stay in step (`InStep`): their cores look alike, their nodes and frames are
equal, and each process of the second run has left what it will still issue in the first. An
operation that the first run schedules at the horizon or later is never issued, and the second run
does not have it.
-/

set_option autoImplicit false
set_option relaxedAutoImplicit false

namespace Propsim.Simulator

open Foundation Interchange Propsim.Core

variable {N : Node} {codec : Option (ClientCodec N)} {ops ops' : List FrozenOp} {hides : Hides}

/-! ### Live and dead operations in a queue -/

theorem EventKind.issues_viewed (p : ProcessId) (nodeCount : ℕ) (kind : EventKind N) :
    (kind.viewed ops nodeCount).1.issues p = kind.issues p := by
  cases kind <;> rfl

theorem EventKind.isClientOp_of_issues {p : ProcessId} {kind : EventKind N}
    (h : kind.issues p = true) : kind.isClientOp = true := by
  cases kind with
  | clientOp => rfl
  | deliver => cases h
  | timer => cases h
  | fault => cases h

/-- An operation of a process is queued below the horizon. -/
def HasLive (core : SchedCore N) (p : ℕ) : Prop :=
  ∃ event ∈ core.queue.toList, event.kind.issues ⟨.ofNat p⟩ = true ∧ event.fireAt < core.horizon

/-- An operation of a process is queued at the horizon or later. -/
def HasDead (core : SchedCore N) (p : ℕ) : Prop :=
  ∃ event ∈ core.queue.toList, event.kind.issues ⟨.ofNat p⟩ = true ∧ core.horizon ≤ event.fireAt

theorem queuedFor_pos_iff (core : SchedCore N) (p : ℕ) :
    0 < queuedFor core ⟨.ofNat p⟩ ↔ HasLive core p ∨ HasDead core p := by
  rw [queuedFor, List.countP_pos_iff]
  constructor
  · rintro ⟨event, hevent, hissues⟩
    rcases lt_or_ge event.fireAt core.horizon with hlt | hle
    · exact Or.inl ⟨event, hevent, hissues, hlt⟩
    · exact Or.inr ⟨event, hevent, hissues, hle⟩
  · rintro (⟨event, hevent, hissues, -⟩ | ⟨event, hevent, hissues, -⟩)
    · exact ⟨event, hevent, hissues⟩
    · exact ⟨event, hevent, hissues⟩

theorem mem_viewOf {nodeCount : ℕ} {horizon : Duration}
    {queue : PriorityQueue (Scheduled.key (N := N))}
    {seen : Duration × EventKind N × Option (Value × ℕ)} :
    seen ∈ viewOf hides ops nodeCount horizon queue ↔
      ∃ event ∈ queue.toList, event.live hides horizon = true ∧
        (event.fireAt, event.kind.viewed ops nodeCount) = seen := by
  rw [viewOf, List.mem_map]
  simp only [List.mem_filter, and_assoc]

theorem hasLive_iff_view (core : SchedCore N) (ops : List FrozenOp) (p : ℕ) :
    HasLive core p ↔ ∃ seen ∈ core.view pastHorizon ops,
      seen.2.1.issues ⟨.ofNat p⟩ = true ∧ seen.1 < core.horizon := by
  constructor
  · rintro ⟨event, hevent, hissues, hlt⟩
    refine ⟨(event.fireAt, event.kind.viewed ops core.nodeCount.toNat),
      mem_viewOf.mpr ⟨event, hevent, Scheduled.live_of_lt hlt, rfl⟩, ?_, hlt⟩
    rw [EventKind.issues_viewed]
    exact hissues
  · rintro ⟨seen, hseen, hissues, hlt⟩
    obtain ⟨event, hevent, -, rfl⟩ := mem_viewOf.mp hseen
    rw [EventKind.issues_viewed] at hissues
    exact ⟨event, hevent, hissues, hlt⟩

namespace SameView

variable {core core' : SchedCore N}

theorem view_eq (h : SameView hides ops ops' core core') :
    core'.view hides ops' = core.view hides ops := by
  cases h with
  | intro queue seq hfresh hfresh' hview => exact hview

theorem core_eq (h : SameView hides ops ops' core core') :
    core' = { core with queue := core'.queue, seq := core'.seq } := by
  cases h
  rfl

/-- The same operations are queued below the horizon. -/
theorem hasLive_iff (h : SameView pastHorizon ops ops' core core') (p : ℕ) :
    HasLive core' p ↔ HasLive core p := by
  have hhorizon : core'.horizon = core.horizon := by
    cases h
    rfl
  rw [hasLive_iff_view core' ops', hasLive_iff_view core ops, h.view_eq, hhorizon]

/-- Scheduling an event that is left out. -/
theorem enqueue_hidden (h : SameView hides ops ops' core core') {fireAt : Duration}
    {kind : EventKind N} (hhidden : kind.hidden hides core.horizon fireAt = true) :
    SameView hides ops ops' (core.enqueue fireAt kind) core' := by
  cases h with
  | intro queue seq hfresh hfresh' hview =>
    refine .intro queue seq (hfresh.push fireAt kind) hfresh' ?_
    exact hview.trans (viewOf_push_dead hfresh fireAt core.nodeCount.toNat hhidden).symm

/-- An event of the second core that is not left out is seen in the first. -/
theorem exists_fireAt (h : SameView hides ops ops' core core') {event' : Scheduled N}
    (hevent : event' ∈ core'.queue.toList)
    (hlive : event'.live hides core'.horizon = true) :
    ∃ event ∈ core.queue.toList, event.fireAt = event'.fireAt := by
  have hseen : (event'.fireAt, event'.kind.viewed ops' core'.nodeCount.toNat) ∈
      core'.view hides ops' := mem_viewOf.mpr ⟨event', hevent, hlive, rfl⟩
  rw [h.view_eq] at hseen
  obtain ⟨event, hin, -, heq⟩ := mem_viewOf.mp hseen
  exact ⟨event, hin, (Prod.mk.inj heq).1⟩

/-- Where the first core stops, the second one stops. Assumes: none of its events is left out. -/
theorem stops (h : SameView hides ops ops' core core')
    (hlive : ∀ event' ∈ core'.queue.toList, event'.live hides core'.horizon = true)
    {after : SchedCore N} (hstops : Stops core after) : ∃ after', Stops core' after' := by
  cases hpop : core'.queue.pop with
  | none => exact ⟨_, .drained hpop⟩
  | some taken =>
    obtain ⟨event', queue'⟩ := taken
    have hmem : event' ∈ core'.queue.toList := PriorityQueue.mem_of_pop hpop
    obtain ⟨event, hevent, hfire⟩ := h.exists_fireAt hmem (hlive event' hmem)
    have hhorizon : core'.horizon = core.horizon := by rw [h.core_eq]
    have hpast := hstops.horizon_le.1 event hevent
    exact ⟨_, .horizon hpop (by rw [hhorizon, ← hfire]; exact hpast)⟩

end SameView

/-! ### The relation -/

/-- What the dispatch sees of an operation of a process. -/
def seen (ops : List FrozenOp) (p nodeCount index : ℕ) : Option (Value × ℕ) :=
  ops[index]?.map fun op ↦ (op.op, target op ⟨.ofNat p⟩ nodeCount)

/-- Two states in step, the first of which will issue `future p` more operations of process `p`. -/
structure InStep (ops ops' : List FrozenOp) (future : ℕ → ℕ) (state state' : RunState N) :
    Prop where
  view : SameView pastHorizon ops ops' state.core state'.core
  nodes : state'.nodes = state.nodes
  slots : state.nodes.length = state.core.nodeCount.toNat
  frames : state'.frames = state.frames
  gated : Gated state.scheduled state.core
  gated' : Gated state'.scheduled state'.core
  /-- The second run queues no operation that it will not issue. -/
  alive : ∀ p < state.core.nodeCount.toNat, ¬ HasDead state'.core p
  /-- The second run has left what the first will issue and has not queued. -/
  supply : ∀ p < state.core.nodeCount.toNat,
    (state'.perProcess p).map (seen ops' p state.core.nodeCount.toNat) =
      ((state.perProcess p).map (seen ops p state.core.nodeCount.toNat)).take
        (future p - queuedFor state.core ⟨.ofNat p⟩)

namespace InStep

variable {future : ℕ → ℕ} {state state' next : RunState N} {p : ℕ}

theorem nodeCount_eq (h : InStep ops ops' future state state') :
    state'.core.nodeCount = state.core.nodeCount := by
  rw [h.view.core_eq]

theorem pendingFor_eq (h : InStep ops ops' future state state') (q : ProcessId) :
    pendingFor state'.core q = pendingFor state.core q := by
  rw [h.view.core_eq]
  rfl

/-- An operation that is queued in the second run is queued in the first. -/
theorem queuedFor_eq_zero (h : InStep ops ops' future state state')
    (hp : p < state.core.nodeCount.toNat) (hidle : queuedFor state.core ⟨.ofNat p⟩ = 0) :
    queuedFor state'.core ⟨.ofNat p⟩ = 0 := by
  by_contra hqueued
  rcases (queuedFor_pos_iff state'.core p).mp (Nat.pos_of_ne_zero hqueued) with hlive | hdead
  · have hfirst := (queuedFor_pos_iff state.core p).mpr (Or.inl ((h.view.hasLive_iff p).mp hlive))
    omega
  · exact h.alive p hp hdead

/-- A process with nothing left stays as it is. -/
theorem pump_drained (hnil : state'.perProcess p = []) : pumpProcess state' p = .ok state' := by
  unfold pumpProcess
  rw [hnil]
  split <;> rfl

theorem perProcess_eq_nil (h : InStep ops ops' future state state')
    (hp : p < state.core.nodeCount.toNat)
    (hnone : state.perProcess p = [] ∨ future p ≤ queuedFor state.core ⟨.ofNat p⟩) :
    state'.perProcess p = [] := by
  have hsupply := h.supply p hp
  rw [← List.map_eq_nil_iff, hsupply]
  rcases hnone with hnil | hle
  · rw [hnil, List.map_nil, List.take_nil]
  · rw [Nat.sub_eq_zero_of_le hle, List.take_zero]

/-- A busy process of the first run is busy in the second, or its operation will never be issued and
the second run has nothing left for it. -/
theorem pump_busy (h : InStep ops ops' future state state') (hp : p < state.core.nodeCount.toNat)
    (hbusy : state.core.closedFor ⟨.ofNat p⟩ < state.scheduled p)
    (hdead : HasDead state.core p → future p = 0) :
    pumpProcess state' p = .ok state' := by
  by_cases hbusy' : state'.core.closedFor ⟨.ofNat p⟩ < state'.scheduled p
  · rw [pumpProcess, if_pos hbusy']
  · have hp' : p < state'.core.nodeCount.toNat := h.nodeCount_eq ▸ hp
    obtain ⟨hpending, hqueued⟩ := h.gated'.idle hp' hbusy'
    rw [h.pendingFor_eq] at hpending
    have hsum := h.gated.accounted p hp
    -- Nothing is pending, so an operation is queued, and the second run does not see it.
    have hfirst : 0 < queuedFor state.core ⟨.ofNat p⟩ := by omega
    have hnone : future p = 0 := by
      rcases (queuedFor_pos_iff state.core p).mp hfirst with hlive | hdead'
      · have hsecond := (queuedFor_pos_iff state'.core p).mpr
          (Or.inl ((h.view.hasLive_iff p).mpr hlive))
        omega
      · exact hdead hdead'
    exact pump_drained (h.perProcess_eq_nil hp (Or.inr (by omega)))

end InStep

/-- Pumping never takes an event out of the queue. -/
theorem Pumps.mem_queue {state next : RunState N} {p : ℕ} (h : Pumps state p next)
    {event : Scheduled N} (hevent : event ∈ state.core.queue.toList) :
    event ∈ next.core.queue.toList := by
  cases h with
  | busy => exact hevent
  | drained => exact hevent
  | issue => exact PriorityQueue.mem_push.mpr (Or.inr hevent)

theorem Pumps.horizon_eq {state next : RunState N} {p : ℕ} (h : Pumps state p next) :
    next.core.horizon = state.core.horizon := by
  cases h with
  | busy => rfl
  | drained => rfl
  | issue => rfl

theorem Pumps.hasLive {state next : RunState N} {p q : ℕ} (h : Pumps state p next)
    (hlive : HasLive state.core q) : HasLive next.core q := by
  obtain ⟨event, hevent, hissues, hlt⟩ := hlive
  exact ⟨event, h.mem_queue hevent, hissues, h.horizon_eq ▸ hlt⟩

theorem Pumps.hasDead {state next : RunState N} {p q : ℕ} (h : Pumps state p next)
    (hdead : HasDead state.core q) : HasDead next.core q := by
  obtain ⟨event, hevent, hissues, hle⟩ := hdead
  exact ⟨event, h.mem_queue hevent, hissues, h.horizon_eq ▸ hle⟩

/-! ### The pump -/

theorem issues_clientOp {count : UInt64} {p q index : ℕ} (hp : p < count.toNat)
    (hq : q < count.toNat) :
    (EventKind.clientOp ⟨.ofNat p⟩ index : EventKind N).issues ⟨.ofNat q⟩ = decide (p = q) := by
  simp only [EventKind.issues, ofNat_inj_of_lt hp hq]

theorem queuedFor_scheduleClientOp (core : SchedCore N) (fireAt : Duration) {p q : ℕ} (index : ℕ)
    (hp : p < core.nodeCount.toNat) (hq : q < core.nodeCount.toNat) :
    queuedFor (core.scheduleClientOp fireAt ⟨.ofNat p⟩ index) ⟨.ofNat q⟩ =
      queuedFor core ⟨.ofNat q⟩ + if p = q then 1 else 0 := by
  rw [SchedCore.scheduleClientOp, queuedFor_enqueue, issues_clientOp hp hq]
  simp only [decide_eq_true_eq]

theorem mem_scheduleClientOp (core : SchedCore N) (fireAt : Duration) (p index : ℕ) :
    (⟨fireAt, core.seq, .clientOp ⟨.ofNat p⟩ index⟩ : Scheduled N) ∈
      (core.scheduleClientOp fireAt ⟨.ofNat p⟩ index).queue.toList :=
  PriorityQueue.mem_push.mpr (Or.inl rfl)

namespace InStep

variable {future : ℕ → ℕ} {state state' next : RunState N} {p : ℕ}

/-- The first run schedules an operation that it will never issue. -/
theorem issue_dead (h : InStep ops ops' future state state') (hp : p < state.core.nodeCount.toNat)
    {index : ℕ} {rest : List ℕ} {fireAt : Duration} (hgated : Gated next.scheduled next.core)
    (hnext : next = { state with
      perProcess := Function.update state.perProcess p rest
      scheduled := Function.update state.scheduled p (state.scheduled p + 1)
      core := state.core.scheduleClientOp fireAt ⟨.ofNat p⟩ index })
    (hdead : state.core.horizon ≤ fireAt) (hnone : future p = 0) :
    pumpProcess state' p = .ok state' ∧ InStep ops ops' future next state' := by
  have hnil := h.perProcess_eq_nil hp (Or.inr (by omega))
  refine ⟨pump_drained hnil, ?_⟩
  subst hnext
  refine ⟨h.view.enqueue_hidden (decide_eq_true hdead), h.nodes, h.slots, h.frames, hgated,
    h.gated', h.alive,
    fun q hq ↦ ?_⟩
  change q < state.core.nodeCount.toNat at hq
  change _ = ((Function.update state.perProcess p rest q).map (seen ops q _)).take
    (future q - queuedFor (state.core.scheduleClientOp fireAt ⟨.ofNat p⟩ index) ⟨.ofNat q⟩)
  rw [queuedFor_scheduleClientOp state.core fireAt index hp hq]
  by_cases hpq : p = q
  · subst hpq
    rw [hnil, hnone, Nat.zero_sub, List.take_zero, List.map_nil]
  · rw [Function.update_of_ne (Ne.symm hpq), if_neg hpq, Nat.add_zero]
    exact h.supply q hq

/-- Both runs schedule the next operation of a process. -/
theorem issue_live (h : InStep ops ops' future state state') (hp : p < state.core.nodeCount.toNat)
    {index : ℕ} {rest : List ℕ} {fireAt : Duration} (hgated : Gated next.scheduled next.core)
    (hfree : ¬ state.core.closedFor ⟨.ofNat p⟩ < state.scheduled p)
    (hstream : state.perProcess p = index :: rest)
    (hsum : addDuration state.core.now (.fromMillis 1) = .ok fireAt)
    (hnext : next = { state with
      perProcess := Function.update state.perProcess p rest
      scheduled := Function.update state.scheduled p (state.scheduled p + 1)
      core := state.core.scheduleClientOp fireAt ⟨.ofNat p⟩ index })
    (hlive : fireAt < state.core.horizon) (hsome : 1 ≤ future p) :
    ∃ next', pumpProcess state' p = .ok next' ∧ InStep ops ops' future next next' := by
  obtain ⟨hpending, hqueued⟩ := h.gated.idle hp hfree
  have hqueued' := h.queuedFor_eq_zero hp hqueued
  have hp' : p < state'.core.nodeCount.toNat := h.nodeCount_eq ▸ hp
  have hfree' : ¬ state'.core.closedFor ⟨.ofNat p⟩ < state'.scheduled p := by
    have hsum := h.gated'.accounted p hp'
    rw [h.pendingFor_eq] at hsum
    omega
  have hnow : state'.core.now = state.core.now := by rw [h.view.core_eq]
  have hsupply := h.supply p hp
  rw [hqueued, Nat.sub_zero, hstream, List.map_cons, ← Nat.succ_pred_eq_of_pos hsome,
    List.take_succ_cons] at hsupply
  obtain ⟨index', rest', hstream', hindex, hrest⟩ := List.map_eq_cons_iff.mp hsupply
  have hpump : pumpProcess state' p = .ok { state' with
      perProcess := Function.update state'.perProcess p rest'
      scheduled := Function.update state'.scheduled p (state'.scheduled p + 1)
      core := state'.core.scheduleClientOp fireAt ⟨.ofNat p⟩ index' } := by
    rw [pumpProcess, if_neg hfree']
    simp only [hstream', hnow, hsum]
  refine ⟨_, hpump, ?_⟩
  have hgated' := (gated_pumpProcess hp' h.gated' hpump).1
  subst hnext
  have hviewed : (EventKind.clientOp ⟨.ofNat p⟩ index' : EventKind N).viewed ops'
      state.core.nodeCount.toNat =
        (EventKind.clientOp ⟨.ofNat p⟩ index).viewed ops state.core.nodeCount.toNat := by
    rw [EventKind.viewed, EventKind.viewed]
    exact congrArg _ hindex
  have hlive' : pastHorizon state.core.horizon fireAt index = false :=
    decide_eq_false (not_le.mpr hlive)
  refine ⟨h.view.enqueue hviewed hlive' hlive', h.nodes, h.slots, h.frames, hgated, hgated',
    fun q hq ↦ ?_, fun q hq ↦ ?_⟩
  · rintro ⟨event, hevent, hissues, hle⟩
    have hhorizon : state'.core.horizon = state.core.horizon := by rw [h.view.core_eq]
    rcases PriorityQueue.mem_push.mp hevent with rfl | hevent
    · exact absurd (hhorizon.ge.trans hle) (not_le.mpr hlive)
    · exact h.alive q hq ⟨event, hevent, hissues, hle⟩
  · change q < state.core.nodeCount.toNat at hq
    change (Function.update state'.perProcess p rest' q).map (seen ops' q _) =
      ((Function.update state.perProcess p rest q).map (seen ops q _)).take
        (future q - queuedFor (state.core.scheduleClientOp fireAt ⟨.ofNat p⟩ index) ⟨.ofNat q⟩)
    rw [queuedFor_scheduleClientOp state.core fireAt index hp hq]
    by_cases hpq : p = q
    · subst hpq
      rw [Function.update_self, Function.update_self, if_pos rfl, hqueued]
      exact hrest
    · rw [Function.update_of_ne (Ne.symm hpq), Function.update_of_ne (Ne.symm hpq), if_neg hpq,
        Nat.add_zero]
      exact h.supply q hq

/-- Pumping one process keeps the runs in step. Assumes: what is queued after it below the horizon
will be issued, and what is queued after it at the horizon or later will not. -/
theorem pumpProcess (h : InStep ops ops' future state state')
    (hp : p < state.core.nodeCount.toNat) (hpump : Simulator.pumpProcess state p = .ok next)
    (hlive : HasLive next.core p → 1 ≤ future p) (hdead : HasDead next.core p → future p = 0) :
    ∃ next', Simulator.pumpProcess state' p = .ok next' ∧ InStep ops ops' future next next' := by
  have hgated := (gated_pumpProcess hp h.gated hpump).1
  cases pumps_of_pumpProcess hpump with
  | busy hbusy => exact ⟨state', h.pump_busy hp hbusy hdead, h⟩
  | drained hfree hstream =>
    exact ⟨state', pump_drained (h.perProcess_eq_nil hp (Or.inl hstream)), h⟩
  | @issue index rest fireAt hfree hstream hsum =>
    have hissues :
        (EventKind.clientOp ⟨.ofNat p⟩ index : EventKind N).issues ⟨.ofNat p⟩ = true := by
      simp [EventKind.issues]
    have hmem := mem_scheduleClientOp state.core fireAt p index
    rcases lt_or_ge fireAt state.core.horizon with hlt | hle
    · exact h.issue_live hp hgated hfree hstream hsum rfl hlt (hlive ⟨_, hmem, hissues, hlt⟩)
    · obtain ⟨hsame, hstep⟩ := h.issue_dead hp hgated rfl hle (hdead ⟨_, hmem, hissues, hle⟩)
      exact ⟨state', hsame, hstep⟩

/-- Pumping several processes keeps the runs in step. -/
theorem pumpAll (processes : List ℕ) (h : InStep ops ops' future state state')
    (hprocesses : ∀ q ∈ processes, q < state.core.nodeCount.toNat)
    (hpump : processes.foldlM Simulator.pumpProcess state = .ok next)
    (hlive : ∀ q < state.core.nodeCount.toNat, HasLive next.core q → 1 ≤ future q)
    (hdead : ∀ q < state.core.nodeCount.toNat, HasDead next.core q → future q = 0) :
    ∃ next', processes.foldlM Simulator.pumpProcess state' = .ok next' ∧
      InStep ops ops' future next next' := by
  induction processes generalizing state state' with
  | nil =>
    rw [List.foldlM_nil, except_pure_eq_ok] at hpump
    exact ⟨state', rfl, hpump ▸ h⟩
  | cons p rest ih =>
    rw [List.foldlM_cons, except_bind_eq_ok] at hpump
    obtain ⟨mid, hfirst, hrest⟩ := hpump
    have hp := hprocesses p List.mem_cons_self
    have hcount : mid.core.nodeCount = state.core.nodeCount :=
      (pumps_of_pumpProcess hfirst).nodeCount_eq
    have hkeeps (q : ℕ) : (HasLive mid.core q → HasLive next.core q) ∧
        (HasDead mid.core q → HasDead next.core q) :=
      foldlM_invariant (P := fun s : RunState N ↦
          (HasLive mid.core q → HasLive s.core q) ∧ (HasDead mid.core q → HasDead s.core q))
        (fun _ _ _ _ hs hturn ↦ ⟨fun hmid ↦ (pumps_of_pumpProcess hturn).hasLive (hs.1 hmid),
          fun hmid ↦ (pumps_of_pumpProcess hturn).hasDead (hs.2 hmid)⟩) ⟨id, id⟩ hrest
    obtain ⟨mid', hfirst', hmid⟩ := h.pumpProcess hp hfirst
      (fun hq ↦ hlive p hp ((hkeeps p).1 hq)) (fun hq ↦ hdead p hp ((hkeeps p).2 hq))
    obtain ⟨next', hrest', hnext⟩ := ih hmid
      (fun q hq ↦ hcount ▸ hprocesses q (List.mem_cons_of_mem _ hq)) hrest
      (fun q hq ↦ hlive q (hcount ▸ hq)) (fun q hq ↦ hdead q (hcount ▸ hq))
    exact ⟨next', by rw [List.foldlM_cons, except_bind_eq_ok]; exact ⟨mid', hfirst', hrest'⟩, hnext⟩

theorem pumpClientOps (h : InStep ops ops' future state state')
    (hpump : Simulator.pumpClientOps state = .ok next)
    (hlive : ∀ q < state.core.nodeCount.toNat, HasLive next.core q → 1 ≤ future q)
    (hdead : ∀ q < state.core.nodeCount.toNat, HasDead next.core q → future q = 0) :
    ∃ next', Simulator.pumpClientOps state' = .ok next' ∧ InStep ops ops' future next next' := by
  have hprocesses (q : ℕ) (hq : q ∈ List.range state.core.nodeCount.toNat) :
      q < state.core.nodeCount.toNat := List.mem_range.mp hq
  obtain ⟨next', hpump', hnext⟩ := h.pumpAll _ hprocesses hpump hlive hdead
  refine ⟨next', ?_, hnext⟩
  rw [Simulator.pumpClientOps, h.nodeCount_eq]
  exact hpump'

theorem snapshot (h : InStep ops ops' future state state') :
    InStep ops ops' future (Simulator.snapshot state) (Simulator.snapshot state') := by
  have hnow : state'.core.now = state.core.now := by rw [h.view.core_eq]
  refine ⟨h.view, h.nodes, h.slots, ?_, h.gated, h.gated', h.alive, h.supply⟩
  rw [Simulator.snapshot, Simulator.snapshot, h.frames, hnow, h.nodes]

end InStep

/-! ### Turns -/

/-- Callbacks queue no client operation. -/
theorem CoreSteps.hasDead {core core' : SchedCore N} (h : CoreSteps core core') {p : ℕ}
    (hdead : HasDead core' p) : HasDead core p := by
  have hkeeps := h.invariant
    (P := fun c ↦ c.horizon = core.horizon ∧ ∀ event ∈ c.queue.toList,
      event.kind.issues ⟨.ofNat p⟩ = true → event ∈ core.queue.toList)
    (fun c c' hc hstep ↦ by
      cases hstep with
      | quiet => exact hc
      | enqueue fireAt kind _ hkind =>
        refine ⟨hc.1, fun event hevent hissues ↦ ?_⟩
        rcases PriorityQueue.mem_push.mp hevent with rfl | hevent
        · have hclient := EventKind.isClientOp_of_issues hissues
          rw [hkind.isClientOp] at hclient
          cases hclient
        · exact hc.2 event hevent hissues
      | close token value _ =>
        have hsame := sameQueue_closeOp c token ‹_› value
        exact ⟨hsame.horizon_eq.trans hc.1, by rw [hsame.queue_eq]; exact hc.2⟩)
    ⟨rfl, fun _ h _ ↦ h⟩
  obtain ⟨event, hevent, hissues, hle⟩ := hdead
  exact ⟨event, hkeeps.2 event hevent hissues, hissues, hkeeps.1 ▸ hle⟩

theorem hasDead_of_dispatch {core core' : SchedCore N} {nodes nodes' : List (Option N.State)}
    {popped : PoppedEvent N} (h : dispatch codec ops core nodes popped = .ok (core', nodes'))
    {p : ℕ}
    (hdead : HasDead core' p) : HasDead core p := by
  rcases dispatch_steps h with ⟨hsteps, -⟩ | ⟨process, index, op, f, -, -, hsteps⟩
  · exact hsteps.hasDead hdead
  · exact hsteps.hasDead hdead

theorem queuedFor_dispatch {core core' : SchedCore N} {nodes nodes' : List (Option N.State)}
    {popped : PoppedEvent N} (h : dispatch codec ops core nodes popped = .ok (core', nodes'))
    (p : ProcessId) : queuedFor core' p = queuedFor core p := by
  rw [← length_issuedBy_queue, ← length_issuedBy_queue, issuedBy_dispatch h]

/-- Resolving the head of a queue: what is left in it. -/
structure Resolved (core : SchedCore N) (event : Scheduled N) (core' : SchedCore N) : Prop where
  nodeCount : core'.nodeCount = core.nodeCount
  queued : ∀ p : ℕ, queuedFor core ⟨.ofNat p⟩ =
    queuedFor core' ⟨.ofNat p⟩ + if event.kind.issues ⟨.ofNat p⟩ then 1 else 0
  dead : ∀ p, HasDead core' p → HasDead core p

theorem resolved_of_pop {core core' : SchedCore N} {event : Scheduled N}
    {queue : PriorityQueue Scheduled.key} {popped : Option (PoppedEvent N)}
    (hpop : core.queue.pop = some (event, queue))
    (hresolve : SchedCore.resolve { core with queue := queue } event = (popped, core')) :
    Resolved core event core' := by
  have hsame := sameQueue_resolve hresolve
  refine ⟨hsame.nodeCount_eq, fun p ↦ ?_, fun p hdead ↦ ?_⟩
  · rw [queuedFor_of_pop hpop core.now, queuedFor, queuedFor, hsame.queue_eq]
  · obtain ⟨b, hb, hissues, hle⟩ := hdead
    rw [hsame.queue_eq] at hb
    refine ⟨b, ?_, hissues, hsame.horizon_eq ▸ hle⟩
    exact PriorityQueue.mem_of_mem_pop hpop hb

theorem Resolved.dispatch {core resolved core' : SchedCore N} {event : Scheduled N}
    {nodes nodes' : List (Option N.State)} {popped : PoppedEvent N}
    (h : Resolved core event resolved)
    (hdispatch : Simulator.dispatch codec ops resolved nodes popped = .ok (core', nodes')) :
    Resolved core event core' := by
  refine ⟨?_, fun p ↦ ?_, fun p hdead ↦ h.dead p (hasDead_of_dispatch hdispatch hdead)⟩
  · exact (queueProperty_nodeCount _).dispatch hdispatch h.nodeCount
  · rw [queuedFor_dispatch hdispatch]
    exact h.queued p

namespace InStep

variable {state state' next : RunState N} {event event' : Scheduled N}
  {rest : List (Scheduled N)} {core core' : SchedCore N}

/-- After the event of a turn is taken, the process that issues it has one operation less to issue
and one less queued. -/
theorem taken (h : InStep ops ops' (fun p ↦ issueCount p (event :: rest)) state state')
    (hresolved : Resolved state.core event core) (hresolved' : Resolved state'.core event' core')
    (hview : SameView pastHorizon ops ops' core core') (hgated : Gated state.scheduled core)
    (hgated' : Gated state'.scheduled core') {nodes nodes' : List (Option N.State)}
    (hslots : nodes.length = core.nodeCount.toNat) (hnodes : nodes' = nodes) :
    InStep ops ops' (fun p ↦ issueCount p rest) { state with core := core, nodes := nodes }
      { state' with core := core', nodes := nodes' } := by
  refine ⟨hview, hnodes, hslots, h.frames, hgated, hgated', fun p hp hdead ↦ ?_, fun p hp ↦ ?_⟩
  · exact h.alive p (hresolved.nodeCount ▸ hp) (hresolved'.dead p hdead)
  · change p < core.nodeCount.toNat at hp
    rw [hresolved.nodeCount] at hp
    have hsupply := h.supply p hp
    rw [hresolved.queued p, issueCount_cons, Nat.add_comm (queuedFor core _),
      Nat.add_sub_add_left] at hsupply
    change (state'.perProcess p).map (seen ops' p core.nodeCount.toNat) =
      ((state.perProcess p).map (seen ops p core.nodeCount.toNat)).take
        (issueCount p rest - queuedFor core ⟨.ofNat p⟩)
    rw [hresolved.nodeCount]
    exact hsupply

/-- A turn of the first run is a turn of the second. Assumes: what is queued after the turn below
the horizon will be issued, and what is queued at the horizon or later will not. -/
theorem turn (h : InStep ops ops' (fun p ↦ issueCount p (event :: rest)) state state')
    (hlater : ∀ b ∈ state.core.queue.toList, state.core.now ≤ b.fireAt)
    (hlater' : ∀ b ∈ state'.core.queue.toList, state'.core.now ≤ b.fireAt)
    (hturn : Turn codec ops state event next)
    (hlive : ∀ p < state.core.nodeCount.toNat, HasLive next.core p → 1 ≤ issueCount p rest)
    (hdead : ∀ p < state.core.nodeCount.toNat, HasDead next.core p → issueCount p rest = 0) :
    ∃ event' next', Turn codec ops' state' event' next' ∧
      InStep ops ops' (fun p ↦ issueCount p rest) next next' := by
  have hevent := hturn.now_le hlater
  have hhorizon : state'.core.horizon = state.core.horizon := by rw [h.view.core_eq]
  have hgated := hturn.gated hlater h.gated
  cases hturn with
  | @skip queue core hpop hbelow hresolve =>
    obtain ⟨event', queue', popped', core', hpop', hfire, hresolve', halike, hview⟩ :=
      h.view.take hpop (Scheduled.live_of_lt hbelow)
        (fun b _ hle ↦ Scheduled.live_of_lt (hle.trans_lt hbelow)) hresolve
    cases halike with
    | same _ =>
      have hturn' : Turn codec ops' state' event' { state' with core := core' } :=
        .skip hpop' (by rw [hhorizon, hfire]; exact hbelow) hresolve'
      have hresolved := resolved_of_pop hpop hresolve
      exact ⟨event', _, hturn', h.taken hresolved (resolved_of_pop hpop' hresolve') hview hgated
        (hturn'.gated hlater' h.gated') (h.slots.trans (congrArg _ hresolved.nodeCount.symm))
        h.nodes⟩
  | @fire queue core popped next hpop hbelow hresolve hhandle =>
    obtain ⟨event', queue', popped', core', hpop', hfire, hresolve', halike, hview⟩ :=
      h.view.take hpop (Scheduled.live_of_lt hbelow)
        (fun b _ hle ↦ Scheduled.live_of_lt (hle.trans_lt hbelow)) hresolve
    obtain ⟨core₁, nodes, pumped, hdispatch, hpump, rfl⟩ := exists_pump_of_handle hhandle
    obtain ⟨popped', rfl⟩ := halike.exists_some
    rw [← h.slots] at halike
    obtain ⟨core₁', hdispatch', hview₁⟩ := dispatch_sameView hview halike hdispatch
    have hlater₁ : state'.core.now ≤ event'.fireAt := by
      exact hlater' event' (PriorityQueue.mem_of_pop hpop')
    have hresolved := (resolved_of_pop hpop hresolve).dispatch hdispatch
    have hresolved' := (resolved_of_pop hpop' hresolve').dispatch hdispatch'
    have hslots : nodes.length = core₁.nodeCount.toNat :=
      (length_dispatch hdispatch).trans (h.slots.trans (congrArg _ hresolved.nodeCount.symm))
    have hunpumped := h.taken hresolved hresolved' hview₁
      (h.gated.fire hpop hevent hresolve hdispatch)
      (h.gated'.fire hpop' hlater₁ hresolve' hdispatch') hslots rfl
    have hcount : core₁.nodeCount = state.core.nodeCount := hresolved.nodeCount
    obtain ⟨pumped', hpump', hstep⟩ := hunpumped.pumpClientOps hpump
      (fun p hp ↦ hlive p (hcount ▸ hp)) (fun p hp ↦ hdead p (hcount ▸ hp))
    rw [← h.nodes] at hdispatch'
    exact ⟨event', _, .fire hpop' (by rw [hhorizon, hfire]; exact hbelow) hresolve'
      (handle_of_pump hdispatch' hpump'), hstep.snapshot⟩

end InStep

/-! ### Loops -/

/-- An operation that is queued below the horizon is issued. -/
theorem Loop.one_le_issueCount {taken : List (Scheduled N)} {state final : RunState N}
    {steps : List (Scheduled N × RunState N)} (h : Loop codec ops state steps final)
    (hqueue : QueueInv taken state.core) (hnow : state.core.now ≤ state.core.horizon) {p : ℕ}
    (hlive : HasLive state.core p) : 1 ≤ issueCount p (steps.map (·.1)) := by
  obtain ⟨event, hevent, hissues, hlt⟩ := hlive
  have htaken := (h.queue_and_clock hqueue hnow).2.2.1 state List.mem_cons_self event hevent hlt
  rw [issueCount, issuedBy, List.length_filterMap_eq_countP]
  refine List.countP_pos_iff.mpr ⟨event, htaken, ?_⟩
  rw [EventKind.isSome_issuedBy]
  exact hissues

/-- A process with an operation at the horizon or later issues nothing more, by induction on the
turns: the operation stays queued, and no other one is. -/
theorem Loop.issueCount_eq_zero {taken : List (Scheduled N)} {state final : RunState N}
    {steps : List (Scheduled N × RunState N)} (h : Loop codec ops state steps final)
    (hqueue : QueueInv taken state.core) (hgated : Gated state.scheduled state.core) {p : ℕ}
    (hp : p < state.core.nodeCount.toNat) (hdead : HasDead state.core p) :
    issueCount p (steps.map (·.1)) = 0 := by
  induction h generalizing taken with
  | stop => rfl
  | @turn state next final event steps hturn _ ih =>
    obtain ⟨b, hb, hissues, hle⟩ := hdead
    obtain ⟨queue, hpop, hbelow⟩ := hturn.pop_eq
    have hlist := PriorityQueue.pop_eq_some_iff.mp hpop
    have hrest : b ∈ queue.toList := by
      rw [hlist] at hb
      rcases List.mem_cons.mp hb with rfl | hb
      · exact absurd hle (not_le.mpr hbelow)
      · exact hb
    have hother : event.kind.issues ⟨.ofNat p⟩ = false := by
      have hone := hgated.one p hp
      have hcount : 0 < queue.toList.countP fun event ↦ event.kind.issues ⟨.ofNat p⟩ :=
        List.countP_pos_iff.mpr ⟨b, hrest, hissues⟩
      rw [queuedFor, hlist, List.countP_cons] at hone
      by_contra hevent
      rw [if_pos (by simpa using hevent)] at hone
      omega
    have hstays : b ∈ next.core.queue.toList := by
      rcases hturn.mem_queue hb with rfl | hb
      · exact absurd hle (not_le.mpr hbelow)
      · exact hb
    rw [List.map_cons, issueCount_cons, hother,
      ih (hturn.queueInv hqueue) (hturn.gated hqueue.later hgated) (hturn.nodeCount_eq ▸ hp)
        ⟨b, hstays, hissues, hturn.horizon_eq ▸ hle⟩]
    rfl

/-- The second run queues only what is seen. -/
theorem InStep.live {future : ℕ → ℕ} {state state' : RunState N}
    (h : InStep ops ops' future state state') {event' : Scheduled N}
    (hevent : event' ∈ state'.core.queue.toList) :
    event'.live pastHorizon state'.core.horizon = true := by
  by_contra hdead
  rw [Scheduled.live, Bool.not_eq_true, Bool.not_eq_false', EventKind.hidden_pastHorizon,
    Bool.and_eq_true, decide_eq_true_eq] at hdead
  cases hkind : event'.kind with
  | clientOp process index =>
    have hp := h.gated'.clients event' hevent process index hkind
    refine h.alive process.id.toNat (h.nodeCount_eq ▸ hp) ⟨event', hevent, ?_, hdead.2⟩
    rw [hkind, UInt64.ofNat_toNat]
    simp [EventKind.issues]
  | deliver => simp [hkind, EventKind.isClientOp] at hdead
  | timer => simp [hkind, EventKind.isClientOp] at hdead
  | fault => simp [hkind, EventKind.isClientOp] at hdead

/-- A run in step with another one to its end, by induction on its turns. -/
theorem InStep.loop {taken taken' : List (Scheduled N)} {state state' final : RunState N}
    {steps : List (Scheduled N × RunState N)} (h : Loop codec ops state steps final)
    (hstep : InStep ops ops' (fun p ↦ issueCount p (steps.map (·.1))) state state')
    (hqueue : QueueInv taken state.core) (hqueue' : QueueInv taken' state'.core)
    (hnow : state.core.now ≤ state.core.horizon) :
    ∃ steps' final', Loop codec ops' state' steps' final' ∧
      InStep ops ops' (fun _ ↦ 0) (lastState state steps) (lastState state' steps') := by
  induction h generalizing taken taken' state' with
  | stop hstops =>
    obtain ⟨core', hstops'⟩ := hstep.view.stops (fun _ hevent ↦ hstep.live hevent) hstops
    exact ⟨[], _, .stop hstops', hstep⟩
  | @turn state next final event steps hturn hrest ih =>
    have hqueueNext := hturn.queueInv hqueue
    have hgatedNext := hturn.gated hqueue.later hstep.gated
    have hnowNext : next.core.now ≤ next.core.horizon := by
      obtain ⟨queue, -, hbelow⟩ := hturn.pop_eq
      rw [hturn.now_eq, hturn.horizon_eq]
      exact hbelow.le
    obtain ⟨event', next', hturn', hnext⟩ := hstep.turn hqueue.later hqueue'.later hturn
      (fun p _ hlive ↦ hrest.one_le_issueCount hqueueNext hnowNext hlive)
      (fun p hp hdead ↦ hrest.issueCount_eq_zero hqueueNext hgatedNext
        (hturn.nodeCount_eq ▸ hp) hdead)
    obtain ⟨steps', final', hrest', hlast⟩ := ih hnext hqueueNext (hturn'.queueInv hqueue') hnowNext
    refine ⟨(event', next') :: steps', final', .turn hturn' hrest', ?_⟩
    rw [lastState_cons, lastState_cons]
    exact hlast

end Propsim.Simulator
