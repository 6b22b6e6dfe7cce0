import Propsim.Simulator.CoreSteps

/-!
# The order in which the events are taken

`QueueInv` relates the events taken so far to the queue: every sequence number handed out belongs to
one taken or queued event, the taken events come in strictly increasing order and before every
queued one, and no queued event is before the current time. A new event is not before the current
time and has the largest sequence number, so every turn keeps the invariant (`Turn.queueInv`), and
an execution takes its events in order and each of them once (`Execution.queueOrdered`).
-/

set_option autoImplicit false
set_option relaxedAutoImplicit false

namespace Propsim.Simulator

open Foundation Interchange Propsim.Core

variable {N : Node} {codec : Option (ClientCodec N)} {ops : List FrozenOp}

/-! ### Operations that leave the queue alone -/

/-- Two cores agree in the clock, the horizon, the queue and the size of the cluster. -/
structure SameQueue (core core' : SchedCore N) : Prop where
  now_eq : core'.now = core.now
  horizon_eq : core'.horizon = core.horizon
  queue_eq : core'.queue = core.queue
  seq_eq : core'.seq = core.seq
  nodeCount_eq : core'.nodeCount = core.nodeCount

theorem SameQueue.refl (core : SchedCore N) : SameQueue core core := ⟨rfl, rfl, rfl, rfl, rfl⟩

theorem SameQueue.trans {a b c : SchedCore N} (h : SameQueue a b) (h' : SameQueue b c) :
    SameQueue a c :=
  ⟨h'.now_eq.trans h.now_eq, h'.horizon_eq.trans h.horizon_eq, h'.queue_eq.trans h.queue_eq,
    h'.seq_eq.trans h.seq_eq, h'.nodeCount_eq.trans h.nodeCount_eq⟩

theorem sameQueue_closeOp (core : SchedCore N) (token : OpToken) (kind : OpKind) (value : Value) :
    SameQueue core (core.closeOp token kind value) := by
  obtain ⟨history, pendingOps, hclose⟩ := closeOp_frame core token kind value
  rw [hclose]
  exact ⟨rfl, rfl, rfl, rfl, rfl⟩

theorem sameQueue_openOp (core : SchedCore N) (process : ProcessId) (f : Function)
    (value : Value) : SameQueue core (core.openOp process f value).2 := ⟨rfl, rfl, rfl, rfl, rfl⟩

theorem sameQueue_applyFault (core : SchedCore N) (action : FaultAction) :
    SameQueue core (core.applyFault action).2 := by
  cases action with
  | partition a b => exact ⟨rfl, rfl, rfl, rfl, rfl⟩
  | healAll => exact ⟨rfl, rfl, rfl, rfl, rfl⟩
  | crash n =>
    obtain ⟨history, pendingOps, hcrash⟩ := applyFault_crash core n
    rw [hcrash]
    exact ⟨rfl, rfl, rfl, rfl, rfl⟩
  | restart n => exact ⟨rfl, rfl, rfl, rfl, rfl⟩

/-- Resolving an event moves the clock to it and leaves the queue alone. -/
theorem sameQueue_resolve {core core' : SchedCore N} {event : Scheduled N}
    {popped : Option (PoppedEvent N)} (h : core.resolve event = (popped, core')) :
    SameQueue { core with now := event.fireAt } core' := by
  cases resolves_of_resolve h with
  | skipped => exact .refl _
  | deliver => exact .refl _
  | timer => exact .refl _
  | clientOp => exact .refl _
  | fault => exact sameQueue_applyFault _ _

/-! ### What a turn does to the queue -/

/-- A property of the core that depends on the clock, the horizon, the queue and the size of the
cluster only, and that survives scheduling an event that is not before the current time. -/
structure QueueProperty (P : SchedCore N → Prop) : Prop where
  congr : ∀ core core', SameQueue core core' → P core → P core'
  enqueue : ∀ (core : SchedCore N) fireAt kind, core.now ≤ fireAt → P core →
    P (core.enqueue fireAt kind)

/-- The size of the cluster never changes. -/
theorem queueProperty_nodeCount (count : UInt64) :
    QueueProperty fun core : SchedCore N ↦ core.nodeCount = count :=
  ⟨fun _ _ hsame h ↦ hsame.nodeCount_eq.trans h, fun _ _ _ _ h ↦ h⟩

/-- The horizon never moves. -/
theorem queueProperty_horizon (horizon : Duration) :
    QueueProperty fun core : SchedCore N ↦ core.horizon = horizon :=
  ⟨fun _ _ hsame h ↦ hsame.horizon_eq.trans h, fun _ _ _ _ h ↦ h⟩

theorem QueueProperty.coreSteps {P : SchedCore N → Prop} (hP : QueueProperty P)
    {core core' : SchedCore N} (h : CoreSteps core core') (hcore : P core) : P core' := by
  refine h.invariant (fun c c' hc hstep ↦ ?_) hcore
  cases hstep with
  | quiet => exact hP.congr c _ ⟨rfl, rfl, rfl, rfl, rfl⟩ hc
  | enqueue fireAt kind hlater _ => exact hP.enqueue c fireAt kind hlater hc
  | close token value _ => exact hP.congr c _ (sameQueue_closeOp c token _ value) hc

/-- What the pump preserves, one scheduled operation after the other. -/
theorem pumpClientOps_core {P : SchedCore N → Prop}
    (hschedule : ∀ (core : SchedCore N) fireAt process index, core.now ≤ fireAt → P core →
      P (core.scheduleClientOp fireAt process index)) {state next : RunState N}
    (h : pumpClientOps state = .ok next) (hstate : P state.core) : P next.core := by
  refine foldlM_invariant (P := fun s : RunState N ↦ P s.core) (fun p _ s s' hs hpump ↦ ?_)
    hstate h
  unfold pumpProcess at hpump
  split at hpump
  · obtain rfl := Except.ok.inj hpump
    exact hs
  · split at hpump
    · obtain rfl := Except.ok.inj hpump
      exact hs
    · split at hpump
      · simp at hpump
      · rename_i fireAt hsum
        obtain rfl := Except.ok.inj hpump
        exact hschedule _ _ _ _ (le_of_addDuration hsum) hs

theorem QueueProperty.dispatch {P : SchedCore N → Prop} (hP : QueueProperty P)
    {core core' : SchedCore N} {nodes nodes' : List (Option N.State)} {popped : PoppedEvent N}
    (h : Simulator.dispatch codec ops core nodes popped = .ok (core', nodes')) (hcore : P core) :
    P core' := by
  rcases dispatch_steps h with ⟨hsteps, -⟩ | ⟨process, index, op, f, -, -, hsteps⟩
  · exact hP.coreSteps hsteps hcore
  · exact hP.coreSteps hsteps (hP.congr _ _ (sameQueue_openOp _ _ _ _) hcore)

theorem QueueProperty.handle {P : SchedCore N → Prop} (hP : QueueProperty P)
    {state next : RunState N} {popped : PoppedEvent N}
    (h : Simulator.handle codec ops state popped = .ok next) (hstate : P state.core) :
    P next.core := by
  rw [Simulator.handle, except_bind_eq_ok] at h
  obtain ⟨⟨core, nodes⟩, hdispatch, h⟩ := h
  rw [except_bind_eq_ok] at h
  obtain ⟨pumped, hpump, h⟩ := h
  obtain rfl := except_pure_eq_ok.mp h
  change P pumped.core
  exact pumpClientOps_core (fun c fireAt process index hlater hc ↦
    hP.enqueue c fireAt _ hlater hc) hpump (hP.dispatch hdispatch hstate)

/-- A turn takes the head of the queue at its time and then only schedules later events. -/
theorem QueueProperty.turn {P : SchedCore N → Prop} (hP : QueueProperty P)
    {state next : RunState N} {event : Scheduled N} (h : Turn codec ops state event next)
    (hstate : ∀ queue, state.core.queue.pop = some (event, queue) →
      event.fireAt < state.core.horizon →
        P { state.core with queue := queue, now := event.fireAt }) : P next.core := by
  cases h with
  | skip hpop hbelow hresolve =>
    exact hP.congr _ _ (sameQueue_resolve hresolve) (hstate _ hpop hbelow)
  | fire hpop hbelow hresolve hhandle =>
    exact hP.handle hhandle (hP.congr _ _ (sameQueue_resolve hresolve) (hstate _ hpop hbelow))

/-! ### The invariant -/

/-- The events taken so far and the queue, together. -/
structure QueueInv (taken : List (Scheduled N)) (core : SchedCore N) : Prop where
  /-- Every sequence number handed out belongs to one taken or queued event. -/
  accounted : ((taken ++ core.queue.toList).map (·.seq)).Perm (List.range core.seq)
  increasing : taken.Pairwise fun first second ↦ first.key < second.key
  ahead : ∀ a ∈ taken, ∀ b ∈ core.queue.toList, a.key < b.key
  later : ∀ b ∈ core.queue.toList, core.now ≤ b.fireAt
  passed : ∀ a ∈ taken, a.fireAt ≤ core.now

theorem Scheduled.key_lt_iff {a b : Scheduled N} :
    a.key < b.key ↔ a.fireAt < b.fireAt ∨ a.fireAt = b.fireAt ∧ a.seq < b.seq :=
  Prod.Lex.toLex_lt_toLex

theorem Scheduled.key_le_iff {a b : Scheduled N} :
    a.key ≤ b.key ↔ a.fireAt < b.fireAt ∨ a.fireAt = b.fireAt ∧ a.seq ≤ b.seq :=
  Prod.Lex.toLex_le_toLex

theorem Scheduled.fireAt_le_of_key_le {a b : Scheduled N} (h : a.key ≤ b.key) :
    a.fireAt ≤ b.fireAt := by
  rcases Scheduled.key_le_iff.mp h with hlt | ⟨heq, -⟩
  · exact hlt.le
  · exact heq.le

/-- A sequence number of a taken or queued event has been handed out. -/
theorem QueueInv.seq_lt {taken : List (Scheduled N)} {core : SchedCore N}
    (h : QueueInv taken core) {a : Scheduled N} (ha : a ∈ taken ++ core.queue.toList) :
    a.seq < core.seq :=
  List.mem_range.mp (h.accounted.subset (List.mem_map_of_mem ha))

/-- Nothing is before a fresh event. -/
theorem key_lt_of_fresh {a : Scheduled N} {fireAt : Duration} {seq : ℕ} {kind : EventKind N}
    (hfire : a.fireAt ≤ fireAt) (hseq : a.seq < seq) :
    a.key < Scheduled.key (⟨fireAt, seq, kind⟩ : Scheduled N) := by
  rw [Scheduled.key_lt_iff]
  rcases lt_or_eq_of_le hfire with hlt | heq
  · exact Or.inl hlt
  · exact Or.inr ⟨heq, hseq⟩

theorem queueProperty_queueInv (taken : List (Scheduled N)) : QueueProperty (QueueInv taken) where
  congr core core' hsame h := by
    obtain ⟨hnow, -, hqueue, hseq, -⟩ := hsame
    exact ⟨by rw [hqueue, hseq]; exact h.accounted, h.increasing, by rw [hqueue]; exact h.ahead,
      by rw [hqueue, hnow]; exact h.later, by rw [hnow]; exact h.passed⟩
  enqueue core fireAt kind hlater h := by
    have hperm : (core.enqueue fireAt kind).queue.toList.Perm
        (⟨fireAt, core.seq, kind⟩ :: core.queue.toList) := PriorityQueue.perm_push _ _
    refine ⟨?_, h.increasing, fun a ha b hb ↦ ?_, fun b hb ↦ ?_, h.passed⟩
    · have hmiddle : ((taken ++ (core.enqueue fireAt kind).queue.toList).map (·.seq)).Perm
          (core.seq :: (taken ++ core.queue.toList).map (·.seq)) := by
        refine ((hperm.append_left taken).trans List.perm_middle).map _ |>.trans ?_
        exact List.Perm.refl _
      refine hmiddle.trans ?_
      change List.Perm _ (List.range (core.seq + 1))
      rw [List.range_succ]
      exact (h.accounted.cons core.seq).trans (List.perm_append_singleton _ _).symm
    · rcases List.mem_cons.mp (hperm.subset hb) with rfl | hb
      · exact key_lt_of_fresh ((h.passed a ha).trans hlater)
          (h.seq_lt (List.mem_append_left _ ha))
      · exact h.ahead a ha b hb
    · rcases List.mem_cons.mp (hperm.subset hb) with rfl | hb
      · exact hlater
      · exact h.later b hb

/-- Taking the head of the queue keeps the invariant. -/
theorem QueueInv.take {taken : List (Scheduled N)} {core : SchedCore N} (h : QueueInv taken core)
    {event : Scheduled N} {queue : PriorityQueue Scheduled.key}
    (hpop : core.queue.pop = some (event, queue)) :
    QueueInv (taken ++ [event]) { core with queue := queue, now := event.fireAt } := by
  have hlist := PriorityQueue.pop_eq_some_iff.mp hpop
  have hleast := PriorityQueue.key_le_of_pop hpop
  have haccounted := h.accounted
  rw [hlist] at haccounted
  have hdistinct : ∀ b ∈ queue.toList, event.seq ≠ b.seq := by
    have hnodup := haccounted.nodup_iff.mpr List.nodup_range
    rw [List.map_append, List.map_cons, List.nodup_append] at hnodup
    intro b hb heq
    exact (List.nodup_cons.mp hnodup.2.1).1 (heq ▸ List.mem_map_of_mem hb)
  have hhead : event ∈ core.queue.toList := by rw [hlist]; exact List.mem_cons_self
  refine ⟨by simpa using haccounted, ?_, fun a ha b hb ↦ ?_, fun b hb ↦ ?_, fun a ha ↦ ?_⟩
  · refine List.pairwise_append.mpr ⟨h.increasing, List.pairwise_singleton _ _, ?_⟩
    intro a ha b hb
    rw [List.mem_singleton.mp hb]
    exact h.ahead a ha event hhead
  · rcases List.mem_append.mp ha with ha | ha
    · exact h.ahead a ha b (by rw [hlist]; exact List.mem_cons_of_mem _ hb)
    · obtain rfl := List.mem_singleton.mp ha
      rcases Scheduled.key_le_iff.mp (hleast b hb) with hlt | ⟨heq, hle⟩
      · exact Scheduled.key_lt_iff.mpr (Or.inl hlt)
      · exact Scheduled.key_lt_iff.mpr
          (Or.inr ⟨heq, Nat.lt_of_le_of_ne hle (hdistinct b hb)⟩)
  · exact Scheduled.fireAt_le_of_key_le (hleast b hb)
  · rcases List.mem_append.mp ha with ha | ha
    · exact (h.passed a ha).trans (h.later event hhead)
    · obtain rfl := List.mem_singleton.mp ha
      exact le_rfl

/-- A turn keeps the invariant and adds its event to those taken. -/
theorem Turn.queueInv {taken : List (Scheduled N)} {state next : RunState N} {event : Scheduled N}
    (h : Turn codec ops state event next) (hstate : QueueInv taken state.core) :
    QueueInv (taken ++ [event]) next.core :=
  (queueProperty_queueInv _).turn h fun _ hpop _ ↦ hstate.take hpop

/-! ### The start of a run -/

/-- Lowering only schedules fault actions. -/
theorem lowerKind_core {P : SchedCore N → Prop}
    (hschedule : ∀ (core : SchedCore N) fireAt action, P core →
      P (core.scheduleFault fireAt action)) {mode : Mode} {nodeCount : UInt64}
    {state next : Lowering N} {kind : FaultKind}
    (h : lowerKind mode nodeCount state kind = .ok next) (hstate : P state.core) :
    P next.core := by
  cases kind with
  | latency range => exact Except.ok.inj h ▸ hstate
  | drop p => exact Except.ok.inj h ▸ hstate
  | duplicate p => exact Except.ok.inj h ▸ hstate
  | reorder => exact Except.ok.inj h ▸ hstate
  | partitions =>
    unfold lowerKind at h
    simp only at h
    split_ifs at h
    · exact Except.ok.inj h ▸ hschedule _ _ _ hstate
    · exact Except.ok.inj h ▸ hstate
  | crashRestart =>
    unfold lowerKind at h
    simp only at h
    split_ifs at h
    · rw [except_bind_eq_ok] at h
      obtain ⟨restartAt, -, h⟩ := h
      exact except_pure_eq_ok.mp h ▸ hschedule _ _ _ (hschedule _ _ _ hstate)
    · exact except_pure_eq_ok.mp h ▸ hschedule _ _ _ hstate

/-- What scheduling a fault action preserves, lowering preserves. -/
theorem lower_core {P : SchedCore N → Prop}
    (hschedule : ∀ (core : SchedCore N) fireAt action, P core →
      P (core.scheduleFault fireAt action)) {faults : Option Faults} {model model' : NetworkModel}
    {core core' : SchedCore N} {rng : SimRng} {nodeCount : UInt64}
    (h : lower faults model core rng nodeCount = .ok (model', core')) (hcore : P core) :
    P core' := by
  unfold lower at h
  split at h
  · exact (Prod.mk.inj (Except.ok.inj h)).2 ▸ hcore
  · split at h
    · refine (Prod.mk.inj (Except.ok.inj h)).2 ▸ ?_
      exact List.foldlRecOn _ _ hcore fun core hP event _ ↦ hschedule core _ _ hP
    · split at h
      · rename_i faults _ kinds _
        rw [lowerSwarm] at h
        simp only [except_bind_eq_ok] at h
        obtain ⟨state, hfold, h⟩ := h
        have hstate : P state.core :=
          foldlM_invariant (P := fun s : Lowering N ↦ P s.core)
            (fun kind _ s s' hs hkind ↦ lowerKind_core hschedule hkind hs) hcore hfold
        split_ifs at h
        · exact (Prod.mk.inj (except_pure_eq_ok.mp h)).2 ▸ hschedule _ _ _ hstate
        · exact (Prod.mk.inj (except_pure_eq_ok.mp h)).2 ▸ hstate
      · exact (Prod.mk.inj (Except.ok.inj h)).2 ▸ hcore

/-- What holds of a fresh scheduler, and survives scheduling faults and setting the network model,
holds of the scheduler of a run. -/
theorem prepared_core {P : SchedCore N → Prop}
    (hschedule : ∀ (core : SchedCore N) fireAt action, P core →
      P (core.scheduleFault fireAt action))
    (hmodel : ∀ (core : SchedCore N) model, P core → P { core with model := model })
    {data : PlanData} {seed : Seed} {prepared : SchedCore N}
    (hprepare : prepareCore N data seed = .ok prepared)
    (hfresh : ∀ horizon, runHorizon data = .ok horizon →
      P { SchedCore.new seed.val (data.network.getD .orderedReliable) (nodeCount data) with
        horizon := horizon }) : P prepared := by
  simp only [prepareCore, except_bind_eq_ok] at hprepare
  obtain ⟨horizon, hhorizon, ⟨model, core⟩, hlower, hprepare⟩ := hprepare
  obtain rfl := except_pure_eq_ok.mp hprepare
  exact hmodel core model (lower_core hschedule hlower (hfresh horizon hhorizon))

/-- What holds of a fresh scheduler holds when the loop of a run starts. -/
theorem QueueProperty.started {P : SchedCore N → Prop} (hP : QueueProperty P)
    {data : PlanData} {seed : Seed} {prepared : SchedCore N} {started : RunState N}
    (hprepare : prepareCore N data seed = .ok prepared)
    (hstart : startRun codec ops prepared = .ok started)
    (hfresh : ∀ core : SchedCore N, core.now = .zero → core.queue = .empty → core.seq = 0 →
      runHorizon data = .ok core.horizon → P core) : P started.core := by
  have hprepared : prepared.now = .zero ∧ P prepared :=
    prepared_core (P := fun core ↦ core.now = .zero ∧ P core)
      (fun core fireAt action h ↦
        ⟨h.1, hP.enqueue core fireAt _ (h.1 ▸ Duration.zero_le fireAt) h.2⟩)
      (fun core model h ↦ ⟨h.1, hP.congr core _ ⟨rfl, rfl, rfl, rfl, rfl⟩ h.2⟩) hprepare
      fun horizon hhorizon ↦ ⟨rfl, hfresh _ rfl rfl rfl hhorizon⟩
  simp only [startRun, except_bind_eq_ok] at hstart
  obtain ⟨⟨core, nodes⟩, hnodes, hpump⟩ := hstart
  refine pumpClientOps_core (fun c fireAt process index hlater hc ↦
    hP.enqueue c fireAt _ hlater hc) hpump ?_
  exact foldlM_invariant (P := fun s : SchedCore N × List (Option N.State) ↦ P s.1)
    (fun id _ s s' hs hdispatch ↦ hP.coreSteps (runCallback_eq_ok hdispatch).1 hs)
    hprepared.2 hnodes

theorem queueInv_of_fresh {core : SchedCore N} (hqueue : core.queue = .empty)
    (hseq : core.seq = 0) : QueueInv [] core := by
  refine ⟨?_, List.Pairwise.nil, by simp, ?_, by simp⟩ <;> simp [hqueue, hseq]

/-- The clock is at zero before the loop starts. -/
theorem now_started {data : PlanData} {seed : Seed} {prepared : SchedCore N}
    {started : RunState N} (hprepare : prepareCore N data seed = .ok prepared)
    (hstart : startRun codec ops prepared = .ok started) : started.core.now = .zero :=
  QueueProperty.started (P := fun core ↦ core.now = .zero)
    ⟨fun _ _ hsame h ↦ hsame.now_eq.trans h, fun _ _ _ _ h ↦ h⟩
    hprepare hstart fun _ h _ _ _ ↦ h

theorem horizon_started {data : PlanData} {seed : Seed} {prepared : SchedCore N}
    {started : RunState N} (hprepare : prepareCore N data seed = .ok prepared)
    (hstart : startRun codec ops prepared = .ok started) :
    runHorizon data = .ok started.core.horizon :=
  QueueProperty.started (P := fun core ↦ runHorizon data = .ok core.horizon)
    ⟨fun _ _ hsame h ↦ by rw [hsame.horizon_eq]; exact h, fun _ _ _ _ h ↦ h⟩
    hprepare hstart fun _ _ _ _ h ↦ h

/-- Before the loop starts no event has been taken and the clock is at zero. -/
theorem queueInv_started {data : PlanData} {seed : Seed} {prepared : SchedCore N}
    {started : RunState N} (hprepare : prepareCore N data seed = .ok prepared)
    (hstart : startRun codec ops prepared = .ok started) :
    QueueInv [] started.core ∧ started.core.now ≤ started.core.horizon := by
  refine ⟨?_, now_started hprepare hstart ▸ Duration.zero_le _⟩
  exact (queueProperty_queueInv []).started hprepare hstart fun core _ hqueue hseq _ ↦
    queueInv_of_fresh hqueue hseq

theorem queueInv_prepared {data : PlanData} {seed : Seed} {prepared : SchedCore N}
    (hprepare : prepareCore N data seed = .ok prepared) : QueueInv [] prepared := by
  have hboth := prepared_core (P := fun core : SchedCore N ↦ core.now = .zero ∧ QueueInv [] core)
    (fun core fireAt action h ↦ ⟨h.1, (queueProperty_queueInv []).enqueue core fireAt _
      (h.1 ▸ Duration.zero_le fireAt) h.2⟩)
    (fun core model h ↦
      ⟨h.1, (queueProperty_queueInv []).congr core _ ⟨rfl, rfl, rfl, rfl, rfl⟩ h.2⟩)
    hprepare fun horizon _ ↦ ⟨rfl, queueInv_of_fresh rfl rfl⟩
  exact hboth.2

/-! ### Whole runs -/

/-- A queued event other than the one taken stays queued. -/
theorem Turn.mem_queue {state next : RunState N} {event b : Scheduled N}
    (h : Turn codec ops state event next) (hb : b ∈ state.core.queue.toList) :
    b = event ∨ b ∈ next.core.queue.toList := by
  by_cases heq : b = event
  · exact Or.inl heq
  · have hstays : QueueProperty fun core : SchedCore N ↦ b ∈ core.queue.toList :=
      ⟨fun core core' hsame hin ↦ by rw [hsame.queue_eq]; exact hin,
        fun core fireAt kind _ hin ↦ PriorityQueue.mem_push.mpr (Or.inr hin)⟩
    refine Or.inr (hstays.turn h fun queue hpop _ ↦ ?_)
    rw [PriorityQueue.mem_pop_iff hpop] at hb
    exact hb.resolve_left heq

theorem Turn.horizon_eq {state next : RunState N} {event : Scheduled N}
    (h : Turn codec ops state event next) : next.core.horizon = state.core.horizon :=
  (queueProperty_horizon _).turn h fun _ _ _ ↦ rfl

/-- After a turn the clock shows the time of its event. -/
theorem Turn.now_eq {state next : RunState N} {event : Scheduled N}
    (h : Turn codec ops state event next) : next.core.now = event.fireAt := by
  have hconstant : QueueProperty fun core : SchedCore N ↦ core.now = event.fireAt :=
    ⟨fun core core' hsame heq ↦ hsame.now_eq.trans heq, fun core fireAt kind _ heq ↦ heq⟩
  exact hconstant.turn h fun _ _ _ ↦ rfl

/-- The state of a run before its loop stops. -/
def lastState (state : RunState N) (steps : List (Scheduled N × RunState N)) : RunState N :=
  ((steps.map (·.2)).getLast?).getD state

theorem lastState_nil (state : RunState N) : lastState state [] = state := rfl

theorem lastState_cons (state next : RunState N) (event : Scheduled N)
    (steps : List (Scheduled N × RunState N)) :
    lastState state ((event, next) :: steps) = lastState next steps := by
  cases steps with
  | nil => rfl
  | cons step rest => simp [lastState, List.getLast?_cons]

/-- A loop keeps the invariant up to the state before it stops. -/
theorem Loop.queueInv {taken : List (Scheduled N)} {state final : RunState N}
    {steps : List (Scheduled N × RunState N)} (h : Loop codec ops state steps final)
    (hstate : QueueInv taken state.core) :
    QueueInv (taken ++ steps.map (·.1)) (lastState state steps).core := by
  induction h generalizing taken with
  | stop => simpa [lastState_nil] using hstate
  | turn hturn _ ih =>
    rw [lastState_cons]
    simpa using ih (hturn.queueInv hstate)

/-- The loop stops because nothing is left below the horizon. -/
theorem Loop.stops {state final : RunState N} {steps : List (Scheduled N × RunState N)}
    (h : Loop codec ops state steps final) :
    Stops (lastState state steps).core final.core ∧
      final = { lastState state steps with core := final.core } := by
  induction h with
  | stop hstops => exact ⟨hstops, rfl⟩
  | turn _ _ ih =>
    rw [lastState_cons]
    exact ih

/-- When the loop stops, no queued event is below the horizon, and the clock is where it was or at
the horizon. -/
theorem Stops.horizon_le {core core' : SchedCore N} (h : Stops core core') :
    (∀ b ∈ core.queue.toList, core.horizon ≤ b.fireAt) ∧
      (core'.now = core.now ∨ core'.now = core.horizon) := by
  cases h with
  | drained hpop =>
    rw [PriorityQueue.pop_eq_none_iff.mp hpop]
    exact ⟨by simp, Or.inl rfl⟩
  | horizon hpop hpast =>
    refine ⟨fun b hb ↦ ?_, Or.inr rfl⟩
    rw [PriorityQueue.mem_pop_iff hpop] at hb
    rcases hb with rfl | hb
    · exact hpast
    · exact hpast.trans
        (Scheduled.fireAt_le_of_key_le (PriorityQueue.key_le_of_pop hpop b hb))

/-- The loop does not stop before an event below the horizon. -/
theorem Stops.not_below {core core' : SchedCore N} (h : Stops core core') {event : Scheduled N} :
    ¬∃ queue, core.queue.pop = some (event, queue) ∧ event.fireAt < core.horizon := by
  rintro ⟨queue, hpop, hbelow⟩
  exact not_le.mpr hbelow (h.horizon_le.1 event (PriorityQueue.mem_of_pop hpop))

/-- Stopping leaves the horizon and the sequence counter alone. -/
theorem Stops.keeps {core core' : SchedCore N} (h : Stops core core') :
    core'.horizon = core.horizon ∧ core'.seq = core.seq := by
  cases h with
  | drained hpop => exact ⟨rfl, rfl⟩
  | horizon hpop hpast => exact ⟨rfl, rfl⟩

/-- Stopping changes the queue and the clock only. -/
theorem Stops.core_eq {core core' : SchedCore N} (h : Stops core core') :
    core' = { core with queue := core'.queue, now := core'.now } := by
  cases h with
  | drained => rfl
  | horizon => rfl

/-- What a loop does with the queue and the clock, by induction on its turns: the horizon stays, the
clock never goes back, and every event below the horizon that is queued at some moment is taken
after it. -/
theorem Loop.queue_and_clock {taken : List (Scheduled N)} {state final : RunState N}
    {steps : List (Scheduled N × RunState N)} (h : Loop codec ops state steps final)
    (hstate : QueueInv taken state.core) (hnow : state.core.now ≤ state.core.horizon) :
    final.core.horizon = state.core.horizon ∧
    ((state :: steps.map (·.2) ++ [final]).map fun s ↦ s.core.now).Pairwise (· ≤ ·) ∧
    (∀ s ∈ state :: steps.map (·.2), ∀ b ∈ s.core.queue.toList,
      b.fireAt < state.core.horizon → b ∈ steps.map (·.1)) ∧
    ∀ event ∈ steps.map (·.1), event.fireAt < state.core.horizon := by
  induction h generalizing taken with
  | @stop state core hstops =>
    obtain ⟨hpast, hclock⟩ := hstops.horizon_le
    have hlast : state.core.now ≤ core.now := by
      rcases hclock with heq | heq
      · exact heq.ge
      · exact hnow.trans heq.ge
    refine ⟨hstops.keeps.1, by simpa using hlast, fun s hs b hb hlt ↦ ?_, by simp⟩
    obtain rfl := List.mem_singleton.mp hs
    exact absurd (hpast b hb) (not_le.mpr hlt)
  | @turn state next final event steps hturn hrest ih =>
    obtain ⟨queue, hpop, hevent⟩ := hturn.pop_eq
    have hnext : next.core.now ≤ next.core.horizon := by
      rw [hturn.now_eq, hturn.horizon_eq]
      exact hevent.le
    obtain ⟨hhorizon, hclock, htaken, hbelow⟩ := ih (hturn.queueInv hstate) hnext
    rw [hturn.horizon_eq] at hhorizon htaken hbelow
    have hfirst : state.core.now ≤ next.core.now := by
      rw [hturn.now_eq]
      exact hstate.later event (PriorityQueue.mem_of_pop hpop)
    refine ⟨hhorizon, ?_, fun s hs b hb hlt ↦ ?_, fun a ha ↦ ?_⟩
    · refine List.pairwise_cons.mpr ⟨fun t ht ↦ ?_, hclock⟩
      rcases List.mem_cons.mp ht with rfl | ht
      · exact hfirst
      · exact hfirst.trans ((List.pairwise_cons.mp hclock).1 t ht)
    · rcases List.mem_cons.mp hs with rfl | hs
      · rcases hturn.mem_queue hb with rfl | hb
        · exact List.mem_cons_self
        · exact List.mem_cons_of_mem _ (htaken next List.mem_cons_self b hb hlt)
      · exact List.mem_cons_of_mem _ (htaken s hs b hb hlt)
    · rcases List.mem_cons.mp ha with rfl | ha
      · exact hevent
      · exact hbelow a ha

/-! ### Executions -/

section Executions

variable {data : PlanData} {workload : Option Strategy} {seed : Seed}

/-- The events of an execution are taken in order: the clock never goes back, the events come in
strictly increasing order and below the horizon, every event below the horizon that is queued at
some moment is taken exactly once, and the events that are never taken are not below it. -/
structure QueueOrdered (e : Execution N data workload codec seed) : Prop where
  horizon_eq : runHorizon data = .ok e.final.core.horizon
  clock : ((e.states ++ [e.final]).map fun s ↦ s.core.now).Pairwise (· ≤ ·)
  increasing : e.taken.Pairwise fun first second ↦ first.key < second.key
  below : ∀ event ∈ e.taken, event.fireAt < e.final.core.horizon
  once : ∀ state ∈ e.states, ∀ event ∈ state.core.queue.toList,
    event.fireAt < e.final.core.horizon → ∃! i : ℕ, e.taken[i]? = some event
  /-- The sequence numbers handed out belong to the taken events and to events that are left. -/
  accounted : ∃ left : List (Scheduled N), (∀ event ∈ left, e.final.core.horizon ≤ event.fireAt) ∧
    ((e.taken ++ left).map (·.seq)).Perm (List.range e.final.core.seq)

/-- A strictly increasing list of events has each of them at one place. -/
theorem existsUnique_getElem?_of_increasing {taken : List (Scheduled N)}
    (h : taken.Pairwise fun first second ↦ first.key < second.key) {event : Scheduled N}
    (hin : event ∈ taken) : ∃! i : ℕ, taken[i]? = some event := by
  have hnodup : taken.Nodup := by
    refine h.imp ?_
    rintro a b hlt rfl
    exact lt_irrefl _ hlt
  obtain ⟨i, hi⟩ := List.mem_iff_getElem?.mp hin
  have hlt := (List.getElem?_eq_some_iff.mp hi).1
  exact ⟨i, hi, fun j hj ↦ ((List.getElem?_inj hlt hnodup).mp (hi.trans hj.symm)).symm⟩

/-- When the loop starts no event has been taken and the clock is at zero. -/
theorem Execution.started_queueInv (e : Execution N data workload codec seed) :
    QueueInv [] e.started.core ∧ e.started.core.now ≤ e.started.core.horizon :=
  queueInv_started e.prepare_eq e.start_eq

/-- The state after the last turn is the last of the states. -/
theorem Execution.states_last (e : Execution N data workload codec seed) :
    e.states[e.steps.length]? = some (lastState e.started e.steps) := by
  rw [Execution.states, lastState]
  rcases List.eq_nil_or_concat e.steps with hnil | ⟨rest, last, hlast⟩
  · simp [hnil]
  · simp [hlast]

/-- Every execution takes its events in order. -/
theorem Execution.queueOrdered (e : Execution N data workload codec seed) : QueueOrdered e := by
  have hhorizon := horizon_started e.prepare_eq e.start_eq
  obtain ⟨hstarted, hnow⟩ := e.started_queueInv
  obtain ⟨hsame, hclock, htaken, hbelow⟩ := e.loop.queue_and_clock hstarted hnow
  have hinv := e.loop.queueInv hstarted
  rw [List.nil_append] at hinv
  obtain ⟨hstops, -⟩ := e.loop.stops
  obtain ⟨hkeepsHorizon, hkeepsSeq⟩ := hstops.keeps
  refine ⟨hsame ▸ hhorizon, hclock, hinv.increasing, hsame ▸ hbelow,
    fun state hstate event hevent hlt ↦ ?_,
    (lastState e.started e.steps).core.queue.toList, ?_, ?_⟩
  · exact existsUnique_getElem?_of_increasing hinv.increasing
      (htaken state hstate event hevent (hsame ▸ hlt))
  · rw [hkeepsHorizon]
    exact hstops.horizon_le.1
  · rw [hkeepsSeq]
    exact hinv.accounted

/-- The horizon is at ten seconds or later. -/
theorem Execution.le_horizon (e : Execution N data workload codec seed) :
    .fromSecs 10 ≤ e.final.core.horizon := by
  have hhorizon := e.queueOrdered.horizon_eq
  simp only [runHorizon, except_bind_eq_ok] at hhorizon
  obtain ⟨horizon, -, hhorizon⟩ := hhorizon
  rw [← except_pure_eq_ok.mp hhorizon]
  exact le_max_right _ _

/-- The horizon at the end is the one at the start. -/
theorem Execution.horizon_eq (e : Execution N data workload codec seed) :
    e.final.core.horizon = e.started.core.horizon :=
  (e.loop.queue_and_clock e.started_queueInv.1 e.started_queueInv.2).1

/-- In every run whose loop ends, the events are taken from the queue in order. -/
theorem runDeterministic_queueOrdered {fuel : ℕ} {nodeDef : Option NodeDef} {run : TypedRun N}
    (h : runDeterministic fuel data nodeDef workload codec seed = .ok (.ok run)) :
    ∃ e : Execution N data workload codec seed, e.result = run ∧ QueueOrdered e := by
  obtain ⟨e, he⟩ := exists_execution h
  exact ⟨e, he, e.queueOrdered⟩

end Executions

/-- The events of a run with a crash, a restart and two clients are taken in order. -/
theorem counter_queueOrdered :
    ∃ run, runDeterministic 8 counterScript none none (some counterCodec) ⟨0⟩ = .ok (.ok run) ∧
      ∃ e : Execution counter counterScript none (some counterCodec) ⟨0⟩,
        e.result = run ∧ QueueOrdered e := by
  obtain ⟨run, hrun⟩ := exists_run_of_isSome (N := counter)
    (x := runDeterministic 8 counterScript none none (some counterCodec) ⟨0⟩) (by decide +kernel)
  exact ⟨run, hrun, runDeterministic_queueOrdered hrun⟩

end Propsim.Simulator
