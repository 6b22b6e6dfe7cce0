import Propsim.Simulator.StreamOrder

/-!
# The pace of the clients

The pump schedules the next operation of a process one millisecond after the event that completed
its last one. So the clients form a closed loop with a think time: every Invoke of a process is
recorded exactly one millisecond after the completion before it, and the first one a millisecond
after the start, whatever the network, the faults and the nodes do (`runDeterministic_paced`). A
process issues at most one operation a millisecond.
-/

set_option autoImplicit false
set_option relaxedAutoImplicit false

namespace Propsim.Simulator

open Foundation Interchange Propsim.Core

variable {N : Node} {codec : Option (ClientCodec N)} {ops : List FrozenOp}

/-! ### Paced histories -/

/-- The time of the last entry in nanoseconds, or the start of the run. -/
def lastNanos (entries : List OpEntry) : ℤ :=
  (entries.getLast?.map (·.time.nanos.toInt)).getD 0

/-- One millisecond later, on a clock of nanoseconds that saturates. -/
def afterThink (nanos : ℤ) : ℤ := min (nanos + 1000000) (2 ^ 63 - 1)

/-- Every Invoke of a process comes one think time after the entry of the process before it. -/
def Paced (entries : List OpEntry) : Prop :=
  ∀ (p : ProcessId) (before after : List OpEntry) (inv : OpEntry),
    project p entries = before ++ inv :: after → inv.kind = .invoke →
      inv.time.nanos.toInt = afterThink (lastNanos before)

@[simp] theorem lastNanos_append_singleton (entries : List OpEntry) (e : OpEntry) :
    lastNanos (entries ++ [e]) = e.time.nanos.toInt := by
  simp [lastNanos]

theorem paced_nil : Paced [] := by
  intro p before after inv hsplit
  simp [project] at hsplit

/-- One more entry keeps a history paced exactly when it is no Invoke or comes one think time after
the last entry of its process. -/
theorem paced_append_singleton (entries : List OpEntry) (e : OpEntry) :
    Paced (entries ++ [e]) ↔ Paced entries ∧
      (e.kind = .invoke →
        e.time.nanos.toInt = afterThink (lastNanos (project e.process entries))) := by
  constructor
  · refine fun h ↦ ⟨fun p before after inv hsplit hinvoke ↦ ?_, fun hinvoke ↦ ?_⟩
    · by_cases hp : e.process = p
      · refine h p before (after ++ [e]) inv ?_ hinvoke
        rw [project_append_singleton, if_pos hp, hsplit, List.append_assoc, List.cons_append]
      · refine h p before after inv ?_ hinvoke
        rw [project_append_singleton, if_neg hp, hsplit]
    · refine h e.process (project e.process entries) [] e ?_ hinvoke
      rw [project_append_singleton, if_pos rfl]
  · rintro ⟨hold, hnew⟩ p before after inv hsplit hinvoke
    rw [project_append_singleton] at hsplit
    split_ifs at hsplit with hp
    · subst hp
      rcases List.eq_nil_or_concat' after with rfl | ⟨rest, last, rfl⟩
      · obtain ⟨rfl, hlast⟩ := List.append_inj' hsplit rfl
        obtain rfl := List.singleton_inj.mp hlast
        exact hnew hinvoke
      · rw [← List.cons_append, ← List.append_assoc] at hsplit
        exact hold _ before rest inv (List.append_inj' hsplit rfl).1 hinvoke
    · exact hold p before after inv hsplit hinvoke

/-- A clock that saturates after a think time is where a think time leads on a clock that
saturates. -/
theorem nowNanos_afterThink {now fireAt : Duration}
    (h : addDuration now (.fromMillis 1) = .ok fireAt) :
    (nowNanos fireAt).toInt = afterThink (nowNanos now).toInt := by
  have hbound (d : Duration) : (nowNanos d).toInt = min d.nanos (2 ^ 63 - 1) := by
    rw [nowNanos, Int64.toInt_ofNat_of_lt (by omega)]
  have hmilli : (Duration.fromMillis 1).nanos = 1000000 := rfl
  have hsum := nanos_of_addDuration h
  rw [hbound, hbound, hsum, hmilli, afterThink]
  omega

/-- Closing a token records no Invoke. -/
theorem Paced.closeOp {core : SchedCore N} (h : Paced core.history.entries) (token : OpToken)
    {kind : OpKind} (value : Value) (hkind : kind ≠ .invoke) :
    Paced (core.closeOp token kind value).history.entries := by
  unfold SchedCore.closeOp
  split
  · exact h
  · exact (paced_append_singleton _ _).mpr ⟨h, fun hinvoke ↦ absurd hinvoke hkind⟩

/-- Closing several tokens. -/
theorem Paced.closeAll {core : SchedCore N} (h : Paced core.history.entries) (tokens : List ℕ) :
    Paced (core.closeAll tokens).history.entries := by
  induction tokens generalizing core with
  | nil => exact h
  | cons token rest ih => exact ih (h.closeOp ⟨token⟩ .nil (by decide))

/-! ### The invariant -/

/-- The history is paced, so are the queued operations, and a process that has operations left but
none in flight has just completed one. -/
structure Pacing (left : ℕ → List ℕ) (core : SchedCore N) : Prop where
  paced : Paced core.history.entries
  due : ∀ event ∈ core.queue.toList, ∀ process index, event.kind = .clientOp process index →
    (nowNanos event.fireAt).toInt =
      afterThink (lastNanos (project ⟨process.id⟩ core.history.entries))
  ready : ∀ p < core.nodeCount.toNat, left p ≠ [] →
    pendingFor core ⟨.ofNat p⟩ + queuedFor core ⟨.ofNat p⟩ = 0 →
    lastNanos (project ⟨.ofNat p⟩ core.history.entries) = (nowNanos core.now).toInt

/-- A process of which an operation is queued has none open. -/
theorem Gated.pendingFor_of_queued {scheduled : ℕ → ℕ} {core : SchedCore N}
    (h : Gated scheduled core) {event : Scheduled N} (hevent : event ∈ core.queue.toList)
    {process : NodeId} {index : ℕ} (hkind : event.kind = .clientOp process index) :
    pendingFor core ⟨process.id⟩ = 0 ∧ queuedFor core ⟨process.id⟩ = 1 := by
  have hone := h.one process.id.toNat (h.clients event hevent process index hkind)
  rw [UInt64.ofNat_toNat] at hone
  have hqueued : 0 < queuedFor core ⟨process.id⟩ :=
    List.countP_pos_iff.mpr ⟨event, hevent, by simp [hkind, EventKind.issues]⟩
  omega

namespace Pacing

variable {scheduled : ℕ → ℕ} {left : ℕ → List ℕ} {core core' : SchedCore N}

/-- Only the history, the queue, the table, the clock and the number of nodes matter. -/
theorem congr (h : Pacing left core) (hhistory : core'.history = core.history)
    (hqueue : core'.queue = core.queue) (hpending : core'.pendingOps = core.pendingOps)
    (hnow : core'.now = core.now) (hcount : core'.nodeCount = core.nodeCount) :
    Pacing left core' where
  paced := hhistory ▸ h.paced
  due := by
    rw [hqueue, hhistory]
    exact h.due
  ready := by
    unfold pendingFor queuedFor
    rw [hcount, hpending, hqueue, hhistory, hnow]
    exact h.ready

/-- Closing a token records the completion now, of a process that has no operation queued. -/
theorem closeOp (h : Pacing left core) (hgated : Gated scheduled core) (token : OpToken)
    {kind : OpKind} (value : Value) (hkind : kind ≠ .invoke) :
    Pacing left (core.closeOp token kind value) := by
  cases hop : core.pending token with
  | none =>
    rw [SchedCore.closeOp, hop]
    exact h
  | some op =>
    have hsame := sameQueue_closeOp core token kind value
    have hentries : (core.closeOp token kind value).history.entries = core.history.entries ++
        [⟨.ofNat core.history.entries.length, .virtualNanos (nowNanos core.now), kind, op.process,
          op.f, value⟩] := by
      rw [SchedCore.closeOp, hop]
      rfl
    have hproject (p : ProcessId) (hp : p ≠ op.process) :
        project p (core.closeOp token kind value).history.entries =
          project p core.history.entries := by
      rw [hentries, project_append_singleton, if_neg (Ne.symm hp)]
    refine ⟨h.paced.closeOp token value hkind, fun event hevent process index hclient ↦ ?_,
      fun p hp hleft hfree ↦ ?_⟩
    · rw [hsame.queue_eq] at hevent
      rw [hproject]
      · exact h.due event hevent process index hclient
      · intro hprocess
        have hnone := (hgated.pendingFor_of_queued hevent hclient).1
        rw [pendingFor, List.countP_eq_zero] at hnone
        exact hnone _ (mem_of_pending hop) (by simp [hprocess])
    · rw [hsame.nodeCount_eq] at hp
      by_cases hprocess : (⟨.ofNat p⟩ : ProcessId) = op.process
      · rw [hentries, project_append_singleton, if_pos hprocess.symm, lastNanos_append_singleton,
          hsame.now_eq]
        rfl
      · rw [hproject _ hprocess, hsame.now_eq]
        refine h.ready p hp hleft ?_
        have hcounts := (counts_closeOp hgated.recorded token value hkind ⟨.ofNat p⟩).1
        have hclosed := closedFor_closeOp hop value hkind ⟨.ofNat p⟩
        rw [if_neg (Ne.symm hprocess)] at hclosed
        have hqueued : queuedFor (core.closeOp token kind value) ⟨.ofNat p⟩ =
            queuedFor core ⟨.ofNat p⟩ := by rw [queuedFor, queuedFor, hsame.queue_eq]
        omega

/-- Closing several tokens. -/
theorem closeAll (h : Pacing left core) (hgated : Gated scheduled core) (tokens : List ℕ) :
    Pacing left (core.closeAll tokens) := by
  induction tokens generalizing core with
  | nil => exact h
  | cons token rest ih =>
    exact ih (h.closeOp hgated ⟨token⟩ .nil (by decide)) (hgated.closeOp ⟨token⟩ .nil (by decide))

/-- An event that issues no operation. -/
theorem enqueue (h : Pacing left core) (fireAt : Duration) {kind : EventKind N}
    (hkind : ∀ process index, kind ≠ .clientOp process index) :
    Pacing left (core.enqueue fireAt kind) := by
  refine ⟨h.paced, fun event hevent process index hclient ↦ ?_, fun p hp hleft hfree ↦ ?_⟩
  · rcases PriorityQueue.mem_push.mp hevent with rfl | hevent
    · exact absurd hclient (hkind process index)
    · exact h.due event hevent process index hclient
  · rw [queuedFor_enqueue] at hfree
    exact h.ready p hp hleft (Nat.eq_zero_of_add_eq_zero_right
      ((Nat.add_assoc _ _ _).trans hfree))

/-- A core step. -/
theorem coreStep (h : Pacing left core) (hgated : Gated scheduled core)
    (hstep : CoreStep core core') : Pacing left core' := by
  cases hstep with
  | quiet => exact h.congr rfl rfl rfl rfl rfl
  | enqueue fireAt kind _ hkind =>
    refine h.enqueue fireAt fun process index heq ↦ ?_
    rw [heq] at hkind
    exact hkind
  | close token value hkind => exact h.closeOp hgated token value hkind

theorem coreSteps (h : Pacing left core) (hgated : Gated scheduled core)
    (hsteps : CoreSteps core core') : Pacing left core' :=
  (hsteps.invariant (P := fun c ↦ Gated scheduled c ∧ Pacing left c)
    (fun _ _ hboth hstep ↦ ⟨hboth.1.coreStep hstep, hboth.2.coreStep hboth.1 hstep⟩)
    ⟨hgated, h⟩).2

/-- Taking an event that issues no operation. Assumes: every process with operations left has one in
flight. -/
theorem take (h : Pacing left core) {event : Scheduled N} {queue : PriorityQueue Scheduled.key}
    (hpop : core.queue.pop = some (event, queue))
    (hkind : ∀ process index, event.kind ≠ .clientOp process index)
    (hbusy : ∀ p < core.nodeCount.toNat, left p ≠ [] →
      0 < pendingFor core ⟨.ofNat p⟩ + queuedFor core ⟨.ofNat p⟩) :
    Pacing left { core with queue := queue, now := event.fireAt } := by
  refine ⟨h.paced, fun b hb ↦ h.due b (PriorityQueue.mem_of_mem_pop hpop hb),
    fun p hp hleft hfree ↦ ?_⟩
  have hflight := hbusy p hp hleft
  have hissues : event.kind.issues ⟨.ofNat p⟩ = false := by
    rw [← EventKind.isSome_issuedBy, EventKind.issuedBy_of_not_clientOp hkind]
    rfl
  rw [queuedFor_of_pop hpop event.fireAt, hissues, if_neg (by simp), Nat.add_zero] at hflight
  exact absurd hfree hflight.ne'

/-- Taking a client operation and opening it: its Invoke is due now. Assumes: every process with
operations left has one in flight. -/
theorem takeClientOp (h : Pacing left core) (hgated : Gated scheduled core) {event : Scheduled N}
    {queue : PriorityQueue Scheduled.key} (hpop : core.queue.pop = some (event, queue))
    {process : NodeId} {index : ℕ} (hkind : event.kind = .clientOp process index)
    (hbusy : ∀ p < core.nodeCount.toNat, left p ≠ [] →
      0 < pendingFor core ⟨.ofNat p⟩ + queuedFor core ⟨.ofNat p⟩) (f : Function) (value : Value) :
    Pacing left (SchedCore.openOp { core with queue := queue, now := event.fireAt }
      ⟨process.id⟩ f value).2 := by
  have hmem : event ∈ core.queue.toList := PriorityQueue.mem_of_pop hpop
  have hcounts (p : ProcessId) : pendingFor (SchedCore.openOp
        { core with queue := queue, now := event.fireAt } ⟨process.id⟩ f value).2 p +
      queuedFor { core with queue := queue, now := event.fireAt } p =
        pendingFor core p + queuedFor core p := by
    have hissues : event.kind.issues p = decide ((⟨process.id⟩ : ProcessId) = p) := by
      rw [hkind, EventKind.issues, decide_eq_decide]
      exact ⟨fun heq ↦ by rw [heq], fun heq ↦ by rw [← heq]⟩
    have hqueued := queuedFor_of_pop hpop event.fireAt p
    rw [pendingFor_openOp, hqueued, hissues]
    simp only [decide_eq_true_eq]
    change pendingFor core p + _ + _ = _
    omega
  refine ⟨?_, fun b hb process' index' hclient ↦ ?_, fun p hp hleft hfree ↦ ?_⟩
  · refine (paced_append_singleton _ _).mpr ⟨h.paced, fun _ ↦ ?_⟩
    exact h.due event hmem process index hkind
  · have hold := h.due b (PriorityQueue.mem_of_mem_pop hpop hb) process' index' hclient
    -- No other operation of the process is queued.
    have hother : (⟨process.id⟩ : ProcessId) ≠ ⟨process'.id⟩ := by
      intro hsame
      have hone := (hgated.pendingFor_of_queued hmem hkind).2
      rw [queuedFor_of_pop hpop event.fireAt, hkind, EventKind.issues, if_pos (by simp)] at hone
      have hb : 0 < queuedFor { core with queue := queue, now := event.fireAt } ⟨process.id⟩ :=
        List.countP_pos_iff.mpr
          ⟨b, hb, by simp [hclient, EventKind.issues, (ProcessId.mk.inj hsame).symm]⟩
      omega
    change (nowNanos b.fireAt).toInt =
      afterThink (lastNanos (project ⟨process'.id⟩ (core.history.entries ++ [_])))
    rw [project_append_singleton, if_neg hother]
    exact hold
  · have hflight := hbusy p hp hleft
    rw [← hcounts] at hflight
    exact absurd hfree hflight.ne'

end Pacing

/-! ### The pump -/

/-- Pumping a process keeps the pace: it schedules an operation a think time after now, when the
last one was completed now. -/
theorem pacing_pumpProcess {state next : RunState N} {p : ℕ}
    (hp : p < state.core.nodeCount.toNat) (hgated : Gated state.scheduled state.core)
    (h : Pacing state.perProcess state.core) (hpump : pumpProcess state p = .ok next) :
    Pacing next.perProcess next.core := by
  cases pumps_of_pumpProcess hpump with
  | busy => exact h
  | drained => exact h
  | @issue index rest fireAt hfree hstream hsum =>
    obtain ⟨hpending, hqueued⟩ := hgated.idle hp hfree
    have hlast := h.ready p hp (by simp [hstream]) (by omega)
    refine ⟨h.paced, fun event hevent process index' hclient ↦ ?_, fun q hq hleft hidle ↦ ?_⟩
    · rcases PriorityQueue.mem_push.mp hevent with rfl | hevent
      · obtain ⟨rfl, -⟩ := EventKind.clientOp.inj hclient
        change (nowNanos fireAt).toInt =
          afterThink (lastNanos (project ⟨.ofNat p⟩ state.core.history.entries))
        rw [hlast]
        exact nowNanos_afterThink hsum
      · exact h.due event hevent process index' hclient
    · change pendingFor state.core _ +
        queuedFor (state.core.scheduleClientOp fireAt ⟨.ofNat p⟩ index) _ = 0 at hidle
      by_cases hqp : q = p
      · subst hqp
        rw [queuedFor_scheduleClientOp_self] at hidle
        omega
      · change Function.update state.perProcess p rest q ≠ [] at hleft
        rw [Function.update_of_ne hqp] at hleft
        rw [SchedCore.scheduleClientOp, queuedFor_enqueue] at hidle
        exact h.ready q hq hleft (by omega)

/-- Pumping every process. -/
theorem pacing_pumpClientOps {state next : RunState N} (hgated : Gated state.scheduled state.core)
    (h : Pacing state.perProcess state.core) (hpump : pumpClientOps state = .ok next) :
    Pacing next.perProcess next.core := by
  have hall := foldlM_invariant
    (P := fun s : RunState N ↦ (Gated s.scheduled s.core ∧
      s.core.nodeCount = state.core.nodeCount) ∧ Pacing s.perProcess s.core)
    (fun p hp s s' hs hturn ↦ by
      have hlt := hs.1.2 ▸ List.mem_range.mp hp
      obtain ⟨hnext, hcount⟩ := gated_pumpProcess hlt hs.1.1 hturn
      exact ⟨⟨hnext, hcount.trans hs.1.2⟩, pacing_pumpProcess hlt hs.1.1 hs.2 hturn⟩)
    ⟨⟨hgated, rfl⟩, h⟩ hpump
  exact hall.2

/-! ### Turns and runs -/

/-- Applying a fault. -/
theorem Pacing.applyFault {scheduled : ℕ → ℕ} {left : ℕ → List ℕ} {core : SchedCore N}
    (h : Pacing left core) (hgated : Gated scheduled core) (action : FaultAction) :
    Pacing left (core.applyFault action).2 := by
  cases action with
  | partition a b => exact h.congr rfl rfl rfl rfl rfl
  | healAll => exact h.congr rfl rfl rfl rfl rfl
  | crash n =>
    refine Pacing.closeAll ?_ (show Gated scheduled _ from ?_) _
    · split_ifs
      · exact h
      · exact h.congr rfl rfl rfl rfl rfl
    · split_ifs
      · exact hgated
      · exact ⟨hgated.recorded.congr rfl rfl rfl le_rfl, hgated.accounted, hgated.one,
          hgated.clients⟩
  | restart n => exact h.congr rfl rfl rfl rfl rfl

/-- Taking an event and dispatching it. Assumes: no queued event is before the current time, and
every process with operations left has one in flight. -/
theorem Pacing.fire {scheduled : ℕ → ℕ} {left : ℕ → List ℕ} {core resolved core' : SchedCore N}
    {event : Scheduled N} {queue : PriorityQueue Scheduled.key} {popped : PoppedEvent N}
    {nodes nodes' : List (Option N.State)} (h : Pacing left core) (hgated : Gated scheduled core)
    (hbusy : ∀ p < core.nodeCount.toNat, left p ≠ [] →
      0 < pendingFor core ⟨.ofNat p⟩ + queuedFor core ⟨.ofNat p⟩)
    (hpop : core.queue.pop = some (event, queue)) (hlater : core.now ≤ event.fireAt)
    (hresolve : SchedCore.resolve { core with queue := queue } event = (some popped, resolved))
    (hdispatch : dispatch codec ops resolved nodes popped = .ok (core', nodes')) :
    Pacing left core' := by
  have hother (hkind : ∀ process index, event.kind ≠ .clientOp process index) :
      Gated scheduled { core with queue := queue, now := event.fireAt } ∧
        Pacing left { core with queue := queue, now := event.fireAt } :=
    ⟨hgated.take hpop hlater hkind, h.take hpop hkind hbusy⟩
  rcases dispatch_steps hdispatch with ⟨hsteps, hne⟩ | ⟨process, index, op, f, rfl, -, hsteps⟩
  · have hboth : Gated scheduled resolved ∧ Pacing left resolved := by
      cases resolves_of_resolve hresolve with
      | deliver hkind _ => exact hother (by simp [hkind])
      | timer hkind _ _ => exact hother (by simp [hkind])
      | @clientOp process index hkind => exact absurd rfl (hne process index)
      | fault hkind =>
        obtain ⟨hgated', h'⟩ := hother (by simp [hkind])
        exact ⟨hgated'.applyFault _, h'.applyFault hgated' _⟩
    exact hboth.2.coreSteps hboth.1 hsteps
  · cases resolves_of_resolve hresolve with
    | clientOp hkind =>
      exact (h.takeClientOp hgated hpop hkind hbusy f op.op).coreSteps
        (hgated.takeClientOp hpop hlater hkind f op.op) hsteps

/-- A turn keeps the pace. Assumes: no queued event is before the current time. -/
theorem Turn.pacing {state next : RunState N} {event : Scheduled N}
    (h : Turn codec ops state event next)
    (hlater : ∀ b ∈ state.core.queue.toList, state.core.now ≤ b.fireAt)
    (hgated : Gated state.scheduled state.core) (hsupplied : Supplied state)
    (hstate : Pacing state.perProcess state.core) : Pacing next.perProcess next.core := by
  have hevent := h.now_le hlater
  cases h with
  | skip hpop hbelow hresolve =>
    cases resolves_of_resolve hresolve with
    | skipped hclient hfault => exact hstate.take hpop hclient hsupplied
  | fire hpop hbelow hresolve hhandle =>
    obtain ⟨core, nodes, pumped, hdispatch, hpump, rfl⟩ := exists_pump_of_handle hhandle
    have hdispatched := hgated.fire hpop hevent hresolve hdispatch
    have hpaced := hstate.fire hgated hsupplied hpop hevent hresolve hdispatch
    have hpumped : Pacing pumped.perProcess pumped.core :=
      pacing_pumpClientOps hdispatched hpaced hpump
    exact hpumped

/-- A loop leaves a paced history, and closing what is open keeps it paced. -/
theorem Loop.pacing {taken : List (Scheduled N)} {state final : RunState N}
    {steps : List (Scheduled N × RunState N)} (h : Loop codec ops state steps final)
    (hqueue : QueueInv taken state.core) (hgated : Gated state.scheduled state.core)
    (hsupplied : Supplied state) (hstate : Pacing state.perProcess state.core) :
    Paced final.core.forceClosePending.history.entries := by
  induction h generalizing taken with
  | @stop state core hstops =>
    have hfinal : Paced core.history.entries := by
      cases hstops with
      | drained hpop => exact hstate.paced
      | horizon hpop hpast => exact hstate.paced
    exact hfinal.closeAll _
  | turn hturn _ ih =>
    exact ih (hturn.queueInv hqueue) (hturn.gated hqueue.later hgated)
      (hturn.supplied hqueue.later hgated hsupplied)
      (hturn.pacing hqueue.later hgated hsupplied hstate)

/-! ### How much a process issues -/

/-- How many Invokes a list of entries has. -/
def invokeCount (entries : List OpEntry) : ℕ := entries.countP fun e ↦ e.kind = .invoke

/-- The last of the first entries of a process comes no earlier than a think time for each Invoke
among them. The induction is on these entries, from the last one. -/
theorem invokeCount_le_lastNanos {p : ProcessId} {entries before rest : List OpEntry}
    (hpaced : Paced entries) (hwell : WellFormed entries)
    (hsplit : project p entries = before ++ rest) :
    min (invokeCount before * 1000000 : ℤ) (2 ^ 63 - 1) ≤ lastNanos before := by
  induction before using List.reverseRecOn generalizing rest with
  | nil => simp [invokeCount, lastNanos]
  | append_singleton before e ih =>
    rw [List.append_assoc] at hsplit
    have hbefore := ih hsplit
    have hcount : invokeCount (before ++ [e]) =
        invokeCount before + if e.kind = .invoke then 1 else 0 := by
      simp [invokeCount, List.countP_append, List.countP_singleton]
    rw [hcount, lastNanos_append_singleton]
    split_ifs with hinvoke
    · rw [hpaced p before rest e hsplit hinvoke, afterThink]
      push_cast
      omega
    · -- A completion comes after an entry of its process, and is not earlier.
      refine hbefore.trans ?_
      rcases List.eq_nil_or_concat' before with rfl | ⟨first, last, rfl⟩
      · refine absurd ((hwell.alternates p 0 e ?_).mpr (by decide)) hinvoke
        rw [hsplit]
        rfl
      · have hsorted : (project p entries).Pairwise fun first second ↦
            first.time.nanos ≤ second.time.nanos := hwell.times.sublist List.filter_sublist
        rw [hsplit, List.append_assoc, List.pairwise_append] at hsorted
        rw [lastNanos_append_singleton]
        exact Int64.le_iff_toInt_le.mp
          ((List.pairwise_cons.mp hsorted.2.1).1 e (by simp))

section Executions

variable {data : PlanData} {workload : Option Strategy} {seed : Seed}

theorem pacing_prepared (left : ℕ → List ℕ) {prepared : SchedCore N}
    (hprepare : prepareCore N data seed = .ok prepared) : Pacing left prepared := by
  refine prepared_core (fun core fireAt action h ↦ h.enqueue fireAt (by simp))
    (fun core model h ↦ h.congr rfl rfl rfl rfl rfl) hprepare fun horizon _ ↦ ?_
  exact ⟨paced_nil, by simp [SchedCore.new], fun p _ _ _ ↦ rfl⟩

/-- The history of every execution is paced. -/
theorem Execution.paced (e : Execution N data workload codec seed) :
    Paced e.result.history.entries := by
  obtain ⟨core, nodes, hnodes, hpump⟩ := startRun_eq_ok.mp e.start_eq
  have hprepared := gated_prepared e.prepare_eq
  have hgated := hprepared.coreSteps (startNodes_steps hnodes)
  have hpacing :
      Pacing (groupOps (resolveOps data workload seed) e.prepared.nodeCount.toNat) core :=
    (pacing_prepared _ e.prepare_eq).coreSteps hprepared (startNodes_steps hnodes)
  have hunpumped : Gated (unpumped (resolveOps data workload seed) e.prepared.nodeCount core
      nodes).scheduled core := hgated
  exact e.loop.pacing e.started_queueInv.1 (gated_started e.prepare_eq e.start_eq)
    (supplied_pumpClientOps hunpumped hpump) (pacing_pumpClientOps hunpumped hpacing hpump)

/-- A loop ends at its horizon at the latest. -/
theorem Loop.now_le_horizon {state final : RunState N} {steps : List (Scheduled N × RunState N)}
    (h : Loop codec ops state steps final) (hnow : state.core.now ≤ state.core.horizon) :
    final.core.now ≤ final.core.horizon := by
  induction h with
  | stop hstops =>
    cases hstops with
    | drained hpop => exact hnow
    | horizon hpop hpast => exact le_rfl
  | turn hturn _ ih =>
    obtain ⟨queue, hpop, hbelow⟩ := hturn.pop_eq
    refine ih ?_
    rw [hturn.now_eq, hturn.horizon_eq]
    exact hbelow.le

/-- No entry of an execution is later than its horizon. -/
theorem Execution.nanos_le_horizon (e : Execution N data workload codec seed) {entry : OpEntry}
    (hentry : entry ∈ e.result.history.entries) :
    entry.time.nanos.toInt ≤ e.final.core.horizon.nanos := by
  obtain ⟨hqueue, hnow⟩ := e.started_queueInv
  have hrecorded : Recorded e.final.core.forceClosePending :=
    (e.loop.recorded hqueue hnow (gated_started e.prepare_eq e.start_eq)).closeAll _
  have hpassed := Int64.le_iff_toInt_le.mp (hrecorded.passed entry hentry)
  obtain ⟨history, pendingOps, hclosed⟩ :=
    closeAll_frame e.final.core (e.final.core.pendingOps.map (·.1))
  have hclock : e.final.core.forceClosePending.now = e.final.core.now := congrArg (·.now) hclosed
  have hend := Duration.le_iff.mp (e.loop.now_le_horizon hnow)
  rw [hclock, nowNanos, Int64.toInt_ofNat_of_lt (by omega)] at hpassed
  omega

/-- In every run, whatever the nodes, the network and the faults do, each Invoke of a process is
recorded one millisecond after the completion before it, the first one a millisecond after the
start. So a process issues at most one operation a millisecond. -/
theorem runDeterministic_paced {fuel : ℕ} {nodeDef : Option NodeDef} {run : TypedRun N}
    (h : runDeterministic fuel data nodeDef workload codec seed = .ok (.ok run)) :
    Paced run.history.entries ∧ ∀ horizon, runHorizon data = .ok horizon → ∀ p : ProcessId,
      min (invokeCount (project p run.history.entries) * 1000000) (2 ^ 63 - 1) ≤ horizon.nanos := by
  obtain ⟨e, rfl⟩ := exists_execution h
  refine ⟨e.paced, fun horizon hhorizon p ↦ ?_⟩
  obtain rfl := Except.ok.inj (hhorizon.symm.trans e.queueOrdered.horizon_eq)
  have hcount := invokeCount_le_lastNanos e.paced e.wellFormed
    (List.append_nil (project p e.result.history.entries)).symm
  rcases List.eq_nil_or_concat' (project p e.result.history.entries) with
    hnil | ⟨first, last, hlast⟩
  · rw [hnil, invokeCount, List.countP_nil, Nat.zero_mul]
    exact (min_le_left _ _).trans (Nat.zero_le _)
  · have hmem : last ∈ e.result.history.entries :=
      (List.mem_filter.mp (hlast ▸ List.mem_append_right first List.mem_cons_self)).1
    have hend := e.nanos_le_horizon hmem
    rw [hlast, lastNanos_append_singleton] at hcount
    rw [hlast]
    omega

end Executions

/-- The clients of a run with a crash and a restart are paced. -/
theorem counterScript_paced :
    ∃ run, runDeterministic 8 counterScript none none (some counterCodec) ⟨0⟩ = .ok (.ok run) ∧
      Paced run.history.entries := by
  obtain ⟨run, hrun⟩ := exists_run_of_isSome (N := counter)
    (x := runDeterministic 8 counterScript none none (some counterCodec) ⟨0⟩) (by decide +kernel)
  exact ⟨run, hrun, (runDeterministic_paced hrun).1⟩

end Propsim.Simulator
