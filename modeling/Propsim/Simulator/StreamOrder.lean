import Propsim.Simulator.Issued

/-!
# The order in which a process issues its operations

The operations of a process are issued in stream order, none is left out and none is issued twice.
A process that has not scheduled all of its operations has one in flight whenever the pump has run
(`Supplied`), so when the loop ends before a process has issued all of them, one of them is still
open, or the next one was scheduled at the horizon or later (`runDeterministic_issues_prefix`).
-/

set_option autoImplicit false
set_option relaxedAutoImplicit false

namespace Propsim.Simulator

open Foundation Interchange Propsim.Core

variable {N : Node} {codec : Option (ClientCodec N)} {ops : List FrozenOp}

/-! ### The part of the stream that a process issues -/

theorem groupOps_map {β : Type} (ops : List FrozenOp) (count p : ℕ) (f : Option FrozenOp → β) :
    (groupOps ops count p).map (fun index ↦ f ops[index]?) =
      (ops.filter fun op ↦ op.process.id.toNat % count = p).map fun op ↦ f (some op) := by
  have hlookup (entry : FrozenOp × ℕ) (hentry : entry ∈ ops.zipIdx) :
      ops[entry.2]? = some entry.1 :=
    List.mem_zipIdx_iff_getElem?.mp hentry
  have hfirst : ops = ops.zipIdx.map (·.1) := (List.zipIdx_map_fst 0 ops).symm
  rw [groupOps, List.map_map]
  conv_rhs => rw [hfirst, List.filter_map, List.map_map]
  refine List.map_congr_left fun entry hentry ↦ ?_
  simp only [Function.comp_apply, hlookup entry (List.mem_filter.mp hentry).1]

/-- What the operations recorded for a process look like is what they looked like in the stream, by
induction on the events. Assumes: clients in the cluster, operations in the stream, and a look at
the operations of the process that recording does not change. -/
theorem filter_issuedOps {count : UInt64} {β : Type} (g : FrozenOp → β)
    {events : List (Scheduled N)}
    (hclients : ∀ event ∈ events, ∀ process index, event.kind = .clientOp process index →
      process.id.toNat < count.toNat ∧ ∃ op, ops[index]? = some op) {p : ℕ} (hp : p < count.toNat)
    (hlook : ∀ event ∈ events, ∀ index op, event.kind = .clientOp ⟨.ofNat p⟩ index →
      ops[index]? = some op → g (.new ⟨.ofNat p⟩ op.op) = g op) :
    ((issuedOps ops events).filter fun op ↦ op.process.id.toNat % count.toNat = p).map
        (fun op ↦ some (g op)) =
      (issuedBy ⟨.ofNat p⟩ events).map fun index ↦ ops[index]?.map g := by
  induction events with
  | nil => rfl
  | cons event rest ih =>
    have hrest := ih (fun e he ↦ hclients e (List.mem_cons_of_mem _ he))
      (fun e he ↦ hlook e (List.mem_cons_of_mem _ he))
    cases hkind : event.kind with
    | clientOp process index =>
      obtain ⟨hlt, op, hop⟩ := hclients event List.mem_cons_self process index hkind
      have hissued : issuedOps ops (event :: rest) = .new process op.op :: issuedOps ops rest := by
        rw [issuedOps, List.filterMap_cons, hkind, EventKind.issuedOp, hop]
        rfl
      have hmod : (FrozenOp.new process op.op).process.id.toNat % count.toNat =
          process.id.toNat := Nat.mod_eq_of_lt hlt
      by_cases hsame : process.id.toNat = p
      · have hid : process = ⟨.ofNat p⟩ := by
          rw [← hsame, UInt64.ofNat_toNat]
        subst hid
        have hby : issuedBy ⟨.ofNat p⟩ (event :: rest) =
            index :: issuedBy ⟨.ofNat p⟩ rest := by
          rw [issuedBy, List.filterMap_cons, hkind, EventKind.issuedBy, if_pos rfl]
          rfl
        rw [hissued, List.filter_cons_of_pos (by simpa [hmod] using hsame), List.map_cons, hby,
          List.map_cons, hrest, hop, Option.map_some,
          hlook event List.mem_cons_self index op hkind hop]
      · have hby : issuedBy ⟨.ofNat p⟩ (event :: rest) = issuedBy ⟨.ofNat p⟩ rest := by
          rw [issuedBy, List.filterMap_cons, hkind, EventKind.issuedBy, if_neg]
          · rfl
          · rintro heq
            exact hsame (heq ▸ toNat_ofNat_of_lt hp)
        rw [hissued, List.filter_cons_of_neg (by simpa [hmod] using hsame), hby, hrest]
    | deliver =>
      rw [issuedOps, issuedBy, List.filterMap_cons, List.filterMap_cons, hkind]
      exact hrest
    | timer =>
      rw [issuedOps, issuedBy, List.filterMap_cons, List.filterMap_cons, hkind]
      exact hrest
    | fault =>
      rw [issuedOps, issuedBy, List.filterMap_cons, List.filterMap_cons, hkind]
      exact hrest

/-! ### The operations of a loop -/

theorem Turn.nodeCount_eq {state next : RunState N} {event : Scheduled N}
    (h : Turn codec ops state event next) : next.core.nodeCount = state.core.nodeCount :=
  (queueProperty_nodeCount _).turn h fun _ _ _ ↦ rfl

/-- The client operations that a loop takes are of processes of the cluster, and in the stream. -/
theorem Loop.clients {taken : List (Scheduled N)} {state final : RunState N}
    {steps : List (Scheduled N × RunState N)} (h : Loop codec ops state steps final)
    (hqueue : QueueInv taken state.core) (hgated : Gated state.scheduled state.core) :
    ∀ event ∈ steps.map (·.1), ∀ process index, event.kind = .clientOp process index →
      process.id.toNat < state.core.nodeCount.toNat ∧ ∃ op, ops[index]? = some op := by
  induction h generalizing taken with
  | stop => simp
  | @turn state next final event steps hturn _ ih =>
    intro b hb process index hkind
    rcases List.mem_cons.mp hb with rfl | hb
    · obtain ⟨queue, hpop, -⟩ := hturn.pop_eq
      have hmem : b ∈ state.core.queue.toList := PriorityQueue.mem_of_pop hpop
      exact ⟨hgated.clients b hmem process index hkind,
        hturn.invoked_eq.2 process index hkind⟩
    · rw [← hturn.nodeCount_eq]
      exact ih (hturn.queueInv hqueue) (hturn.gated hqueue.later hgated) b hb process index hkind

/-- How many operations of a process events issue. -/
def issueCount (p : ℕ) (events : List (Scheduled N)) : ℕ := (issuedBy ⟨.ofNat p⟩ events).length

theorem issueCount_cons (p : ℕ) (event : Scheduled N) (rest : List (Scheduled N)) :
    issueCount p (event :: rest) =
      (if event.kind.issues ⟨.ofNat p⟩ then 1 else 0) + issueCount p rest := by
  rw [issueCount, issueCount, issuedBy, issuedBy, List.length_filterMap_eq_countP,
    List.length_filterMap_eq_countP, List.countP_cons, Nat.add_comm]
  simp only [EventKind.isSome_issuedBy]

/-! ### A process with operations left has one in flight -/

/-- A process that has not scheduled all of its operations has one in flight. -/
def SuppliedFor (state : RunState N) (p : ℕ) : Prop :=
  state.perProcess p ≠ [] →
    0 < pendingFor state.core ⟨.ofNat p⟩ + queuedFor state.core ⟨.ofNat p⟩

/-- Every process that has not scheduled all of its operations has one in flight. -/
def Supplied (state : RunState N) : Prop :=
  ∀ p < state.core.nodeCount.toNat, SuppliedFor state p

theorem queuedFor_scheduleClientOp_self (core : SchedCore N) (fireAt : Duration) (p index : ℕ) :
    queuedFor (core.scheduleClientOp fireAt ⟨.ofNat p⟩ index) ⟨.ofNat p⟩ =
      queuedFor core ⟨.ofNat p⟩ + 1 := by
  rw [SchedCore.scheduleClientOp, queuedFor_enqueue]
  simp [EventKind.issues]

/-- Pumping a process supplies it. -/
theorem suppliedFor_pumpProcess {state next : RunState N} {p : ℕ}
    (hp : p < state.core.nodeCount.toNat) (hgated : Gated state.scheduled state.core)
    (hpump : pumpProcess state p = .ok next) : SuppliedFor next p := by
  intro hleft
  cases pumps_of_pumpProcess hpump with
  | busy hbusy =>
    have hsum := hgated.accounted p hp
    omega
  | drained hfree hstream => exact absurd hstream hleft
  | @issue index rest fireAt hfree hstream hsum =>
    change 0 < pendingFor state.core _ + queuedFor (state.core.scheduleClientOp _ _ _) _
    rw [queuedFor_scheduleClientOp_self]
    omega

/-- Pumping one process leaves the others supplied. -/
theorem SuppliedFor.pumpProcess {state next : RunState N} {p q : ℕ} (h : SuppliedFor state p)
    (hpump : pumpProcess state q = .ok next) : SuppliedFor next p := by
  intro hleft
  cases pumps_of_pumpProcess hpump with
  | busy => exact h hleft
  | drained => exact h hleft
  | @issue index rest fireAt hfree hstream hsum =>
    change 0 < pendingFor state.core _ + queuedFor (state.core.scheduleClientOp _ _ _) _
    by_cases hpq : p = q
    · subst hpq
      rw [queuedFor_scheduleClientOp_self]
      omega
    · have hbefore : 0 < pendingFor state.core ⟨.ofNat p⟩ + queuedFor state.core ⟨.ofNat p⟩ := by
        refine h ?_
        change Function.update state.perProcess q rest p ≠ [] at hleft
        rwa [Function.update_of_ne hpq] at hleft
      rw [SchedCore.scheduleClientOp, queuedFor_enqueue]
      omega

/-- Pumping several processes supplies them, by induction on them. -/
theorem suppliedFor_pumpAll (processes : List ℕ) {state next : RunState N}
    (hprocesses : ∀ p ∈ processes, p < state.core.nodeCount.toNat)
    (hgated : Gated state.scheduled state.core)
    (hpump : processes.foldlM pumpProcess state = .ok next) :
    ∀ p ∈ processes, SuppliedFor next p := by
  induction processes generalizing state with
  | nil => simp
  | cons q rest ih =>
    rw [List.foldlM_cons, except_bind_eq_ok] at hpump
    obtain ⟨mid, hfirst, hrest⟩ := hpump
    have hq := hprocesses q List.mem_cons_self
    have hcount : mid.core.nodeCount = state.core.nodeCount :=
      (pumps_of_pumpProcess hfirst).nodeCount_eq
    intro p hp
    rcases List.mem_cons.mp hp with rfl | hp
    · exact foldlM_invariant (P := fun s : RunState N ↦ SuppliedFor s p)
        (fun _ _ _ _ hs hturn ↦ hs.pumpProcess hturn) (suppliedFor_pumpProcess hq hgated hfirst)
        hrest
    · exact ih (fun r hr ↦ hcount ▸ hprocesses r (List.mem_cons_of_mem _ hr))
        (gated_pumpProcess hq hgated hfirst).1 hrest p hp

theorem supplied_pumpClientOps {state next : RunState N}
    (hgated : Gated state.scheduled state.core) (hpump : pumpClientOps state = .ok next) :
    Supplied next := by
  have hcount : next.core.nodeCount = state.core.nodeCount := by rw [(pumpClientOps_frame hpump).2]
  intro p hp
  exact suppliedFor_pumpAll _ (fun q hq ↦ List.mem_range.mp hq) hgated hpump p
    (List.mem_range.mpr (hcount ▸ hp))

/-- A turn keeps every process supplied. Assumes: no queued event is before the current time. -/
theorem Turn.supplied {state next : RunState N} {event : Scheduled N}
    (h : Turn codec ops state event next)
    (hlater : ∀ b ∈ state.core.queue.toList, state.core.now ≤ b.fireAt)
    (hgated : Gated state.scheduled state.core) (hstate : Supplied state) : Supplied next := by
  have hevent := h.now_le hlater
  cases h with
  | skip hpop hbelow hresolve =>
    cases resolves_of_resolve hresolve with
    | skipped hclient hfault =>
      intro p hp hleft
      have hqueued := queuedFor_of_pop hpop event.fireAt ⟨.ofNat p⟩
      have hissues : event.kind.issues ⟨.ofNat p⟩ = false := by
        rw [← EventKind.isSome_issuedBy, EventKind.issuedBy_of_not_clientOp hclient]
        rfl
      rw [hissues, if_neg (by simp), Nat.add_zero] at hqueued
      have hbefore := hstate p hp hleft
      rw [hqueued] at hbefore
      exact hbefore
  | fire hpop hbelow hresolve hhandle =>
    obtain ⟨core, nodes, pumped, hdispatch, hpump, rfl⟩ := exists_pump_of_handle hhandle
    have hdispatched := hgated.fire hpop hevent hresolve hdispatch
    have hpumped : Supplied pumped := supplied_pumpClientOps hdispatched hpump
    exact hpumped

theorem Loop.supplied {taken : List (Scheduled N)} {state final : RunState N}
    {steps : List (Scheduled N × RunState N)} (h : Loop codec ops state steps final)
    (hqueue : QueueInv taken state.core) (hgated : Gated state.scheduled state.core)
    (hstate : Supplied state) : Supplied (lastState state steps) := by
  induction h generalizing taken with
  | stop => exact hstate
  | turn hturn _ ih =>
    rw [lastState_cons]
    exact ih (hturn.queueInv hqueue) (hturn.gated hqueue.later hgated)
      (hturn.supplied hqueue.later hgated hstate)

/-- A process that has not issued all of its operations has one open, or its next one is queued.
Assumes: it has no operations queued and none left only when it has issued all. -/
theorem in_flight_of_left {state : RunState N} {p : ℕ} (hgated : Gated state.scheduled state.core)
    (hsupplied : Supplied state) (hp : p < state.core.nodeCount.toNat)
    (hleft : issuedBy ⟨.ofNat p⟩ state.core.queue.toList = [] → state.perProcess p ≠ []) :
    (∃ inv i, OpenAt state.core.history.entries i inv ∧ inv.process = ⟨.ofNat p⟩) ∨
      ∃ event index, event ∈ state.core.queue.toList ∧
        event.kind = .clientOp ⟨.ofNat p⟩ index ∧
        issuedBy ⟨.ofNat p⟩ state.core.queue.toList = [index] := by
  have hone := hgated.one p hp
  have hlength := length_issuedBy_queue state.core ⟨.ofNat p⟩
  by_cases hopen : 0 < pendingFor state.core ⟨.ofNat p⟩
  · obtain ⟨⟨token, process, f⟩, hentry, hprocess⟩ := List.countP_pos_iff.mp hopen
    obtain ⟨i, inv, hinv, hsame, -⟩ := (hgated.recorded.open_iff process f).mp ⟨token, hentry⟩
    exact Or.inl ⟨inv, i, hinv, hsame.trans (by simpa using hprocess)⟩
  · have hqueued : queuedFor state.core ⟨.ofNat p⟩ = 1 := by
      by_contra hnone
      have hempty : issuedBy ⟨.ofNat p⟩ state.core.queue.toList = [] := by
        rw [← List.length_eq_zero_iff]
        omega
      have hflight := hsupplied p hp (hleft hempty)
      omega
    obtain ⟨index, hsingle⟩ := List.length_eq_one_iff.mp (hlength.trans hqueued)
    have hin : index ∈ issuedBy ⟨.ofNat p⟩ state.core.queue.toList := by simp [hsingle]
    obtain ⟨event, hevent, hissued⟩ := List.mem_filterMap.mp hin
    refine Or.inr ⟨event, index, hevent, ?_, hsingle⟩
    cases hkind : event.kind with
    | clientOp process index' =>
      rw [hkind, EventKind.issuedBy, Option.ite_none_right_eq_some] at hissued
      obtain ⟨hid, hindex⟩ := hissued
      obtain rfl : process = ⟨.ofNat p⟩ := congrArg NodeId.mk hid
      rw [Option.some.inj hindex]
    | deliver => simp [hkind, EventKind.issuedBy] at hissued
    | timer => simp [hkind, EventKind.issuedBy] at hissued
    | fault => simp [hkind, EventKind.issuedBy] at hissued

/-! ### The operations of an execution -/

section Executions

variable {data : PlanData} {workload : Option Strategy} {seed : Seed}

/-- The number of nodes of an execution. -/
theorem Execution.nodeCount_eq (e : Execution N data workload codec seed) :
    e.started.core.nodeCount = e.prepared.nodeCount := by
  obtain ⟨core, nodes, hnodes, hpump⟩ := startRun_eq_ok.mp e.start_eq
  have hsame : e.started.core.nodeCount = core.nodeCount := by
    rw [(pumpClientOps_frame hpump).2]
    rfl
  exact hsame.trans ((queueProperty_nodeCount _).coreSteps (startNodes_steps hnodes) rfl)

theorem Loop.nodeCount_eq {state final : RunState N} {steps : List (Scheduled N × RunState N)}
    (h : Loop codec ops state steps final) :
    (lastState state steps).core.nodeCount = state.core.nodeCount := by
  induction h with
  | stop => rfl
  | turn hturn _ ih => rw [lastState_cons, ih, hturn.nodeCount_eq]

/-- The operations that a process issues are the first of its part of the stream. -/
theorem Execution.issuedBy_taken (e : Execution N data workload codec seed) {p : ℕ}
    (hp : p < e.prepared.nodeCount.toNat) :
    issuedBy ⟨.ofNat p⟩ e.taken =
      (groupOps (resolveOps data workload seed) e.prepared.nodeCount.toNat p).take
        (issueCount p e.taken) := by
  have hstreamed := (e.loop.streamed e.started_queueInv.1 (gated_started e.prepare_eq e.start_eq)
    (streamed_started e.prepare_eq e.start_eq)).2
  have hcount := e.loop.nodeCount_eq.trans e.nodeCount_eq
  have hparts := hstreamed p (by rw [hcount]; exact hp)
  rw [hcount, List.nil_append, List.append_assoc] at hparts
  rw [← hparts]
  exact (List.take_left' rfl).symm

theorem Execution.prepared_nodeCount (e : Execution N data workload codec seed) :
    e.prepared.nodeCount = nodeCount data :=
  prepared_core (P := fun core ↦ core.nodeCount = nodeCount data) (fun _ _ _ h ↦ h)
    (fun _ _ h ↦ h) e.prepare_eq fun _ _ ↦ rfl

/-- The client operations that an execution takes are of processes of the cluster, and in the
stream. -/
theorem Execution.clients (e : Execution N data workload codec seed) :
    ∀ event ∈ e.taken, ∀ process index, event.kind = .clientOp process index →
      process.id.toNat < e.prepared.nodeCount.toNat ∧
        ∃ op, (resolveOps data workload seed)[index]? = some op := by
  rw [← e.nodeCount_eq]
  exact e.loop.clients e.started_queueInv.1 (gated_started e.prepare_eq e.start_eq)

/-- A client operation is issued by the process that its operation belongs to. -/
theorem Execution.process_of_taken (e : Execution N data workload codec seed) {event : Scheduled N}
    (hevent : event ∈ e.taken) {process : NodeId} {index : ℕ}
    (hkind : event.kind = .clientOp process index) :
    ∃ op, (resolveOps data workload seed)[index]? = some op ∧
      op.process.id.toNat % e.prepared.nodeCount.toNat = process.id.toNat := by
  obtain ⟨hlt, -⟩ := e.clients event hevent process index hkind
  have hissued : index ∈ issuedBy ⟨.ofNat process.id.toNat⟩ e.taken := by
    refine List.mem_filterMap.mpr ⟨event, hevent, ?_⟩
    rw [hkind, EventKind.issuedBy, UInt64.ofNat_toNat, if_pos rfl]
  rw [e.issuedBy_taken hlt] at hissued
  obtain ⟨⟨op, index'⟩, hentry, rfl⟩ := List.mem_map.mp (List.mem_of_mem_take hissued)
  obtain ⟨hlookup, hprocess⟩ := List.mem_filter.mp hentry
  exact ⟨op, List.mem_zipIdx_iff_getElem?.mp hlookup, of_decide_eq_true hprocess⟩

/-- The state of an execution before its loop stops. -/
theorem Execution.last_spec (e : Execution N data workload codec seed) :
    Gated (lastState e.started e.steps).scheduled (lastState e.started e.steps).core ∧
      Streamed (resolveOps data workload seed) e.taken (lastState e.started e.steps) ∧
      Supplied (lastState e.started e.steps) := by
  obtain ⟨hqueue, -⟩ := e.started_queueInv
  have hgated := gated_started e.prepare_eq e.start_eq
  obtain ⟨hlast, hstreamed⟩ :=
    e.loop.streamed hqueue hgated (streamed_started e.prepare_eq e.start_eq)
  rw [List.nil_append] at hstreamed
  refine ⟨hlast, hstreamed, e.loop.supplied hqueue hgated ?_⟩
  obtain ⟨core, nodes, hnodes, hpump⟩ := startRun_eq_ok.mp e.start_eq
  have hunpumped := (gated_prepared e.prepare_eq).coreSteps (startNodes_steps hnodes)
  refine supplied_pumpClientOps ?_ hpump
  exact hunpumped

/-- The operations of a stream that belong to a process. -/
def streamOf (ops : List FrozenOp) (count p : ℕ) : List FrozenOp :=
  ops.filter fun op ↦ op.process.id.toNat % count = p

/-- The payloads of the Invokes that a history records for a process. -/
def invokedBy (history : History) (p : ProcessId) : List Value :=
  (history.entries.filter fun entry ↦ entry.kind = .invoke ∧ entry.process = p).map (·.value)

theorem map_streamOf {β : Type} (ops : List FrozenOp) (count p : ℕ) (f : FrozenOp → β) :
    (groupOps ops count p).map (fun index ↦ ops[index]?.map f) =
      ((streamOf ops count p).map f).map some := by
  rw [groupOps_map ops count p (Option.map f), streamOf, List.map_map]
  rfl

theorem length_groupOps (ops : List FrozenOp) (count p : ℕ) :
    (groupOps ops count p).length = (streamOf ops count p).length := by
  simpa only [List.length_map] using congrArg List.length (map_streamOf ops count p id)

/-- The operation at a position of the part of a process. -/
theorem getElem?_streamOf {count p k index : ℕ} (h : (groupOps ops count p)[k]? = some index) :
    (streamOf ops count p)[k]? = ops[index]? := by
  have hmapped := congrArg (·[k]?) (map_streamOf ops count p id)
  simp only [List.getElem?_map, h, Option.map_some, Option.map_id, id_eq] at hmapped
  obtain ⟨op, hop, hsome⟩ := Option.map_eq_some_iff.mp hmapped.symm
  exact hop.trans hsome

/-- The payloads that a run records for a process are those of the first operations of its part of
the stream. -/
theorem Execution.invokedBy_eq (e : Execution N data workload codec seed) {p : ℕ}
    (hp : p < e.prepared.nodeCount.toNat) :
    invokedBy e.result.history ⟨.ofNat p⟩ =
      ((streamOf (resolveOps data workload seed) e.prepared.nodeCount.toNat p).take
        (issueCount p e.taken)).map (·.op) := by
  have hrecorded : ((collectOps e.result).filter fun op ↦
      op.process.id.toNat % e.prepared.nodeCount.toNat = p).map (fun op ↦ some op.op) =
      (invokedBy e.result.history ⟨.ofNat p⟩).map some := by
    have hmod : ∀ entry ∈ e.result.history.entries, entry.kind = .invoke →
        (entry.process.id.toNat % e.prepared.nodeCount.toNat = p ↔
          entry.process = ⟨.ofNat p⟩) := by
      intro entry hentry hkind
      have hin : FrozenOp.new ⟨entry.process.id⟩ entry.value ∈ collectOps e.result := by
        refine List.mem_map.mpr ⟨entry, List.mem_filter.mpr ⟨hentry, by simpa using hkind⟩, rfl⟩
      rw [e.collectOps_eq, issuedOps, List.mem_filterMap] at hin
      obtain ⟨event, hevent, hissued⟩ := hin
      have hlt : entry.process.id.toNat < e.prepared.nodeCount.toNat := by
        cases hevent' : event.kind with
        | clientOp process index =>
          obtain ⟨hlt, op, hop⟩ := e.clients event hevent process index hevent'
          rw [hevent', EventKind.issuedOp, hop, Option.map_some] at hissued
          have hprocess := congrArg FrozenOp.process (Option.some.inj hissued)
          exact (congrArg (fun id : NodeId ↦ id.id.toNat) hprocess) ▸ hlt
        | deliver => simp [hevent', EventKind.issuedOp] at hissued
        | timer => simp [hevent', EventKind.issuedOp] at hissued
        | fault => simp [hevent', EventKind.issuedOp] at hissued
      rw [Nat.mod_eq_of_lt hlt]
      constructor
      · rintro rfl
        rw [UInt64.ofNat_toNat]
      · rintro heq
        rw [heq]
        exact toNat_ofNat_of_lt hp
    rw [collectOps, List.filter_map, List.map_map, List.filter_filter, invokedBy, List.map_map]
    refine congrArg (List.map _) (List.filter_congr fun entry hentry ↦ ?_)
    by_cases hkind : entry.kind = .invoke
    · simp only [Function.comp_apply, hkind, decide_true, Bool.and_true, true_and]
      exact decide_eq_decide.mpr (hmod entry hentry hkind)
    · simp [hkind]
  have hissued := filter_issuedOps (·.op) e.clients hp fun _ _ _ _ _ _ ↦ rfl
  rw [← e.collectOps_eq, hrecorded, e.issuedBy_taken hp, List.map_take, map_streamOf,
    ← List.map_take, ← List.map_take] at hissued
  exact List.map_injective_iff.mpr (Option.some_injective _) hissued

/-- When the loop ends before a process has issued all of its operations, one of them is open, or
the next one is queued at the horizon or later. -/
theorem Execution.unissued (e : Execution N data workload codec seed) {p : ℕ}
    (hp : p < e.prepared.nodeCount.toNat)
    (hproper : issueCount p e.taken <
      (streamOf (resolveOps data workload seed) e.prepared.nodeCount.toNat p).length) :
    (∃ i inv, OpenAt e.final.core.history.entries i inv ∧ inv.process = ⟨.ofNat p⟩) ∨
      ∃ event ∈ (lastState e.started e.steps).core.queue.toList, ∃ index,
        event.kind = .clientOp ⟨.ofNat p⟩ index ∧
        (streamOf (resolveOps data workload seed) e.prepared.nodeCount.toNat p)[
          issueCount p e.taken]? = (resolveOps data workload seed)[index]? ∧
        e.final.core.horizon ≤ event.fireAt := by
  obtain ⟨hgated, hstreamed, hsupplied⟩ := e.last_spec
  obtain ⟨hstops, -⟩ := e.loop.stops
  have hcount := e.loop.nodeCount_eq.trans e.nodeCount_eq
  have hp' : p < (lastState e.started e.steps).core.nodeCount.toNat := by rwa [hcount]
  have hparts := hstreamed p hp'
  rw [hcount, List.append_assoc] at hparts
  have hflight := in_flight_of_left hgated hsupplied hp' fun hqueue hnil ↦ by
    rw [hqueue, hnil, List.append_nil, List.append_nil] at hparts
    rw [← length_groupOps, ← hparts] at hproper
    exact lt_irrefl _ hproper
  rcases hflight with ⟨inv, i, hopen, hprocess⟩ | ⟨event, index, hevent, hkind, hsingle⟩
  · refine Or.inl ⟨i, inv, ?_, hprocess⟩
    rw [hstops.core_eq]
    exact hopen
  · refine Or.inr ⟨event, hevent, index, hkind, getElem?_streamOf ?_, ?_⟩
    · rw [← hparts, hsingle, issueCount, List.getElem?_append_right le_rfl, Nat.sub_self]
      rfl
    · rw [hstops.keeps.1]
      exact hstops.horizon_le.1 event hevent

/-- For each process, a run issues the operations of a first part of its stream, in stream order.
When that part is not the whole stream, an operation of the process is open when the loop ends, or
its next one is left in the queue at the horizon or later. -/
theorem runDeterministic_issues_prefix {fuel : ℕ} {nodeDef : Option NodeDef} {run : TypedRun N}
    (h : runDeterministic fuel data nodeDef workload codec seed = .ok (.ok run)) :
    ∃ e : Execution N data workload codec seed, e.result = run ∧
      ∀ p < (nodeCount data).toNat,
        let ops := resolveOps data workload seed
        let stream := streamOf ops (nodeCount data).toNat p
        ∃ k ≤ stream.length,
          invokedBy run.history ⟨.ofNat p⟩ = (stream.take k).map (·.op) ∧
          (k < stream.length →
            (∃ i inv, OpenAt e.final.core.history.entries i inv ∧ inv.process = ⟨.ofNat p⟩) ∨
            ∃ event ∈ (lastState e.started e.steps).core.queue.toList, ∃ index,
              event.kind = .clientOp ⟨.ofNat p⟩ index ∧ stream[k]? = ops[index]? ∧
              e.final.core.horizon ≤ event.fireAt) := by
  obtain ⟨e, rfl⟩ := exists_execution h
  refine ⟨e, rfl, fun p hp ↦ ?_⟩
  rw [← e.prepared_nodeCount] at hp ⊢
  have hle : issueCount p e.taken ≤
      (streamOf (resolveOps data workload seed) e.prepared.nodeCount.toNat p).length := by
    rw [issueCount, e.issuedBy_taken hp, List.length_take, length_groupOps]
    exact min_le_right _ _
  exact ⟨issueCount p e.taken, hle, e.invokedBy_eq hp, e.unissued hp⟩

end Executions

/-- A run with a crash, a restart and two clients issues the operations of each client in order. -/
theorem counter_issues_prefix :
    ∃ run, runDeterministic 8 counterScript none none (some counterCodec) ⟨0⟩ = .ok (.ok run) ∧
      ∃ e : Execution counter counterScript none (some counterCodec) ⟨0⟩, e.result = run ∧
        ∀ p < (nodeCount counterScript).toNat,
          let ops := resolveOps counterScript none ⟨0⟩
          let stream := streamOf ops (nodeCount counterScript).toNat p
          ∃ k ≤ stream.length,
            invokedBy run.history ⟨.ofNat p⟩ = (stream.take k).map (·.op) ∧
            (k < stream.length →
              (∃ i inv, OpenAt e.final.core.history.entries i inv ∧ inv.process = ⟨.ofNat p⟩) ∨
              ∃ event ∈ (lastState e.started e.steps).core.queue.toList, ∃ index,
                event.kind = .clientOp ⟨.ofNat p⟩ index ∧ stream[k]? = ops[index]? ∧
                e.final.core.horizon ≤ event.fireAt) := by
  obtain ⟨run, hrun⟩ := exists_run_of_isSome (N := counter)
    (x := runDeterministic 8 counterScript none none (some counterCodec) ⟨0⟩) (by decide +kernel)
  exact ⟨run, hrun, runDeterministic_issues_prefix hrun⟩

end Propsim.Simulator
