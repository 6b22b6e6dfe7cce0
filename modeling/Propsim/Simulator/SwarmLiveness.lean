import Propsim.Simulator.FaultEvents

/-!
# Swarm faults heal in liveness mode

In `Mode::Liveness` the lowering of swarm faults schedules a later restart for every crash and, once
it has cut the cluster, a later heal (`Recovers`), for every list of kinds and every state of the
generator. The fault events of a run are applied in the order of time, so after the last of them,
within the first four seconds, no partition is active and no node is crashed
(`swarm_liveness_heals`).
-/

set_option autoImplicit false
set_option relaxedAutoImplicit false

namespace Propsim.Simulator

open Foundation Interchange Propsim.Core

variable {N : Node} {codec : Option (ClientCodec N)} {ops : List FrozenOp}

/-! ### The schedule -/

/-- Two groups split the cluster: they are disjoint, neither is empty, and together they are all
nodes. -/
structure Splits (nodeCount : UInt64) (a b : List NodeId) : Prop where
  disjoint : ∀ n ∈ a, n ∉ b
  left : a ≠ []
  right : b ≠ []
  covers : ∀ n : NodeId, n ∈ a ∨ n ∈ b ↔ n.id < nodeCount

theorem mem_nodeRange {lo hi : UInt64} {n : NodeId} :
    n ∈ nodeRange lo hi ↔ lo ≤ n.id ∧ n.id < hi := by
  have hdrop (m : ℕ) : m ∈ (List.range hi.toNat).drop lo.toNat ↔ lo.toNat ≤ m ∧ m < hi.toNat := by
    rw [List.range_eq_range', List.drop_range', List.mem_range'_1]
    omega
  simp only [nodeRange, List.mem_map, hdrop, UInt64.le_iff_toNat_le, UInt64.lt_iff_toNat_lt]
  constructor
  · rintro ⟨m, ⟨hlo, hhi⟩, rfl⟩
    rw [UInt64.toNat_ofNat_of_lt' (hhi.trans hi.toNat_lt)]
    exact ⟨hlo, hhi⟩
  · rintro ⟨hlo, hhi⟩
    exact ⟨n.id.toNat, ⟨hlo, hhi⟩, by rw [UInt64.ofNat_toNat]⟩

/-- A cut inside the cluster splits it. -/
theorem splits_of_cut {nodeCount cut : UInt64} (hlo : 1 ≤ cut) (hhi : cut < nodeCount) :
    Splits nodeCount (nodeRange 0 cut) (nodeRange cut nodeCount) := by
  have hpos : (0 : UInt64) < cut := UInt64.lt_of_lt_of_le (by decide) hlo
  refine ⟨fun n ha hb ↦ ?_, ?_, ?_, fun n ↦ ?_⟩
  · exact absurd (mem_nodeRange.mp ha).2 (UInt64.not_lt.mpr (mem_nodeRange.mp hb).1)
  · exact List.ne_nil_of_mem (mem_nodeRange.mpr ⟨UInt64.le_refl 0, hpos⟩ : (⟨0⟩ : NodeId) ∈ _)
  · exact List.ne_nil_of_mem (mem_nodeRange.mpr ⟨UInt64.le_refl cut, hhi⟩ : (⟨cut⟩ : NodeId) ∈ _)
  · rw [mem_nodeRange, mem_nodeRange]
    constructor
    · rintro (⟨-, hn⟩ | ⟨-, hn⟩)
      · exact UInt64.lt_trans hn hhi
      · exact hn
    · intro hn
      rcases UInt64.lt_or_le n.id cut with hlt | hle
      · exact .inl ⟨UInt64.zero_le, hlt⟩
      · exact .inr ⟨hle, hn⟩

/-- What a loop of liveness mode has scheduled: faults within three seconds, cuts that split the
cluster, within one second, and for each crash a later restart of its node. -/
structure Injured (nodeCount : UInt64) (state : Lowering N) : Prop where
  early : ∀ event ∈ state.core.queue.toList, event.fireAt.nanos < 3000 * 1000000
  cuts : ∀ event ∈ state.core.queue.toList, ∀ a b, event.kind = .fault (.partition a b) →
    Splits nodeCount a b ∧ event.fireAt.nanos < 1000 * 1000000 ∧ state.scheduledPartition = true
  restarts : ∀ event ∈ state.core.queue.toList, ∀ n, event.kind = .fault (.crash n) →
    ∃ later ∈ state.core.queue.toList, later.kind = .fault (.restart n) ∧
      event.fireAt < later.fireAt

theorem mem_scheduleFault {core : SchedCore N} {fireAt : Duration} {action : FaultAction}
    {event : Scheduled N} :
    event ∈ (core.scheduleFault fireAt action).queue.toList ↔
      event = ⟨fireAt, core.seq, .fault action⟩ ∨ event ∈ core.queue.toList :=
  PriorityQueue.mem_push

/-- A draw of milliseconds, in nanoseconds. -/
theorem nanos_rangeU64 (rng : SimRng) {lo hi : UInt64} {l u : ℕ} (hl : lo.toNat = l)
    (hu : hi.toNat = u) (hlt : l < u) :
    l * 1000000 ≤ (Duration.fromMillis (rng.rangeU64 lo hi).1).nanos ∧
      (Duration.fromMillis (rng.rangeU64 lo hi).1).nanos < u * 1000000 := by
  subst hl hu
  obtain ⟨hlo, hhi⟩ := rng.rangeU64_mem (UInt64.lt_iff_toNat_lt.mpr hlt)
  rw [UInt64.le_iff_toNat_le] at hlo
  rw [UInt64.lt_iff_toNat_lt] at hhi
  rw [Duration.nanos_fromMillis]
  omega

theorem exists_addDuration {a b : Duration} (h : a.nanos + b.nanos ≤ maxNanos) :
    ∃ c, addDuration a b = .ok c := by
  have hsum : a.checkedAdd b = some ⟨a.nanos + b.nanos, h⟩ :=
    Duration.checkedAdd_eq_some_iff.mpr rfl
  exact ⟨_, by rw [addDuration, hsum]⟩

theorem addDuration_error {a b : Duration} {halt : Halt} (h : addDuration a b = .error halt) :
    halt = .overflow := by
  unfold addDuration at h
  split at h
  · cases h
  · exact (Except.error.inj h).symm

theorem armTimer_error {core : SchedCore N} {node : NodeId} {timer : N.Timer} {after : Duration}
    {halt : Halt} (h : core.armTimer node timer after = .error halt) : halt = .overflow := by
  unfold SchedCore.armTimer at h
  simp only at h
  split at h
  · rename_i hsum
    exact Except.error.inj h ▸ addDuration_error hsum
  · cases h

theorem pumpProcess_error {state : RunState N} {p : ℕ} {halt : Halt}
    (h : pumpProcess state p = .error halt) : halt = .overflow := by
  unfold pumpProcess at h
  split_ifs at h
  split at h
  · cases h
  split at h
  · rename_i hsum
    exact Except.error.inj h ▸ addDuration_error hsum
  · cases h

section Steps

variable {nodeCount : UInt64} {state : Lowering N}

/-- A cut is scheduled. -/
theorem Injured.cut (h : Injured nodeCount state) (rng : SimRng) {fireAt : Duration}
    (hfireAt : fireAt.nanos < 1000 * 1000000) {a b : List NodeId} (hsplits : Splits nodeCount a b) :
    Injured nodeCount { state with
      rng := rng, core := state.core.scheduleFault fireAt (.partition a b)
      scheduledPartition := true } := by
  refine ⟨fun event hevent ↦ ?_, fun event hevent a' b' hkind ↦ ?_, fun event hevent n hkind ↦ ?_⟩
  · rcases mem_scheduleFault.mp hevent with rfl | hevent
    · exact hfireAt.trans (by decide +kernel)
    · exact h.early event hevent
  · rcases mem_scheduleFault.mp hevent with rfl | hevent
    · obtain ⟨rfl, rfl⟩ := FaultAction.partition.inj (EventKind.fault.inj hkind)
      exact ⟨hsplits, hfireAt, rfl⟩
    · obtain ⟨hsplits', hearly, -⟩ := h.cuts event hevent a' b' hkind
      exact ⟨hsplits', hearly, rfl⟩
  · rcases mem_scheduleFault.mp hevent with rfl | hevent
    · simp at hkind
    · obtain ⟨later, hlater, hrestart⟩ := h.restarts event hevent n hkind
      exact ⟨later, mem_scheduleFault.mpr (.inr hlater), hrestart⟩

/-- A crash is scheduled with a later restart. -/
theorem Injured.crash (h : Injured nodeCount state) (rng : SimRng) {crashAt restartAt : Duration}
    (hlater : crashAt < restartAt) (hearly : restartAt.nanos < 3000 * 1000000) (victim : NodeId) :
    Injured nodeCount { state with
      rng := rng
      core := (state.core.scheduleFault crashAt (.crash victim)).scheduleFault restartAt
        (.restart victim) } := by
  refine ⟨fun event hevent ↦ ?_, fun event hevent a b hkind ↦ ?_, fun event hevent n hkind ↦ ?_⟩
  · rcases mem_scheduleFault.mp hevent with rfl | hevent
    · exact hearly
    rcases mem_scheduleFault.mp hevent with rfl | hevent
    · exact (Duration.lt_iff.mp hlater).trans hearly
    · exact h.early event hevent
  · rcases mem_scheduleFault.mp hevent with rfl | hevent
    · simp at hkind
    rcases mem_scheduleFault.mp hevent with rfl | hevent
    · simp at hkind
    · exact h.cuts event hevent a b hkind
  · rcases mem_scheduleFault.mp hevent with rfl | hevent
    · simp at hkind
    rcases mem_scheduleFault.mp hevent with rfl | hevent
    · obtain rfl := FaultAction.crash.inj (EventKind.fault.inj hkind)
      exact ⟨_, mem_scheduleFault.mpr (.inl rfl), rfl, hlater⟩
    · obtain ⟨later, hlater', hrestart⟩ := h.restarts event hevent n hkind
      exact ⟨later, mem_scheduleFault.mpr (.inr (mem_scheduleFault.mpr (.inr hlater'))), hrestart⟩

/-- Lowering one kind in liveness mode succeeds, by cases on the kind. -/
theorem Injured.lowerKind (h : Injured nodeCount state) (kind : FaultKind) :
    ∃ next, lowerKind .liveness nodeCount state kind = .ok next ∧ Injured nodeCount next := by
  cases kind with
  | latency range => exact ⟨_, rfl, h.early, h.cuts, h.restarts⟩
  | drop p => exact ⟨_, rfl, h.early, h.cuts, h.restarts⟩
  | duplicate p => exact ⟨_, rfl, h.early, h.cuts, h.restarts⟩
  | reorder => exact ⟨_, rfl, h.early, h.cuts, h.restarts⟩
  | partitions =>
    by_cases hcount : 2 ≤ nodeCount
    · have hlt : (1 : UInt64) < nodeCount := UInt64.lt_of_lt_of_le (by decide) hcount
      obtain ⟨hlo, hhi⟩ := state.rng.rangeU64_mem hlt
      rcases hcut : state.rng.rangeU64 1 nodeCount with ⟨cut, rng⟩
      have hearly : (Duration.fromMillis (rng.rangeU64 100 1000).1).nanos < 1000 * 1000000 :=
        (nanos_rangeU64 (l := 100) rng rfl rfl (by decide)).2
      rcases hdraw : rng.rangeU64 100 1000 with ⟨millis, rng'⟩
      rw [hcut] at hlo hhi
      rw [hdraw] at hearly
      refine ⟨_, ?_, h.cut rng' hearly (splits_of_cut hlo hhi)⟩
      simp only [Simulator.lowerKind, if_pos hcount, hcut, hdraw]
    · refine ⟨state, ?_, h⟩
      simp only [Simulator.lowerKind, if_neg hcount]
  | crashRestart =>
    rcases hvictim : state.rng.rangeU64 0 (max nodeCount 1) with ⟨victim, rng⟩
    have hcrash : (Duration.fromMillis (rng.rangeU64 100 1000).1).nanos < 1000 * 1000000 :=
      (nanos_rangeU64 (l := 100) rng rfl rfl (by decide)).2
    rcases hdraw : rng.rangeU64 100 1000 with ⟨crashMillis, rng'⟩
    obtain ⟨hafter, hearly⟩ :
        500 * 1000000 ≤ (Duration.fromMillis (rng'.rangeU64 500 2000).1).nanos ∧
          (Duration.fromMillis (rng'.rangeU64 500 2000).1).nanos < 2000 * 1000000 :=
      nanos_rangeU64 rng' rfl rfl (by decide)
    rcases hdraw' : rng'.rangeU64 500 2000 with ⟨restartMillis, rng''⟩
    simp only [hdraw] at hcrash
    simp only [hdraw'] at hafter hearly
    have hbound : (Duration.fromMillis crashMillis).nanos +
        (Duration.fromMillis restartMillis).nanos < 3000 * 1000000 := by omega
    obtain ⟨restartAt, hsum⟩ := exists_addDuration (hbound.le.trans (by decide +kernel))
    have hnanos := nanos_of_addDuration hsum
    have hlater : Duration.fromMillis crashMillis < restartAt := by
      rw [Duration.lt_iff, hnanos]
      omega
    refine ⟨_, ?_, h.crash rng'' hlater (hnanos ▸ hbound) ⟨victim⟩⟩
    simp only [Simulator.lowerKind, hvictim, hdraw, hdraw', if_true, hsum]
    rfl

/-- Lowering a list of kinds in liveness mode succeeds, by induction on it. -/
theorem Injured.lowerKinds (h : Injured nodeCount state) (kinds : List FaultKind) :
    ∃ final, kinds.foldlM (Simulator.lowerKind .liveness nodeCount) state = .ok final ∧
      Injured nodeCount final := by
  induction kinds generalizing state with
  | nil => exact ⟨state, rfl, h⟩
  | cons kind rest ih =>
    obtain ⟨next, hkind, hnext⟩ := h.lowerKind kind
    obtain ⟨final, hrest, hfinal⟩ := ih hnext
    exact ⟨final, by rw [List.foldlM_cons, hkind]; exact hrest, hfinal⟩

end Steps

/-- A schedule from which the cluster recovers within four seconds: every cut splits the cluster and
is followed by a heal, and every crash is followed by a restart of its node. -/
structure Recovers (nodeCount : UInt64) (events : List (Scheduled N)) : Prop where
  early : ∀ event ∈ events, event.fireAt.nanos < 4000 * 1000000
  splits : ∀ event ∈ events, ∀ a b, event.kind = .fault (.partition a b) → Splits nodeCount a b
  heals : ∀ event ∈ events, ∀ a b, event.kind = .fault (.partition a b) →
    ∃ later ∈ events, later.kind = .fault .healAll ∧ event.fireAt < later.fireAt
  restarts : ∀ event ∈ events, ∀ n, event.kind = .fault (.crash n) →
    ∃ later ∈ events, later.kind = .fault (.restart n) ∧ event.fireAt < later.fireAt

/-- Lowering swarm faults in liveness mode succeeds, with a schedule from which the cluster
recovers. Assumes: a scheduler with an empty queue. -/
theorem lowerSwarm_liveness (kinds : List FaultKind) (model : NetworkModel) (core : SchedCore N)
    (hqueue : core.queue = .empty) (rng : SimRng) (nodeCount : UInt64) :
    ∃ model' core', lowerSwarm kinds .liveness model core rng nodeCount = .ok (model', core') ∧
      Recovers nodeCount core'.queue.toList := by
  rcases hselect : selectKinds kinds rng with ⟨enabled, rng'⟩
  have hfresh : Injured nodeCount (⟨model, core, rng', false⟩ : Lowering N) := by
    refine ⟨?_, ?_, ?_⟩ <;> simp [hqueue]
  obtain ⟨state, hfold, hinjured⟩ := hfresh.lowerKinds enabled
  by_cases hcut : state.scheduledPartition = true
  · obtain ⟨hlate, hearly⟩ :
        2000 * 1000000 ≤ (Duration.fromMillis (state.rng.rangeU64 2000 4000).1).nanos ∧
          (Duration.fromMillis (state.rng.rangeU64 2000 4000).1).nanos < 4000 * 1000000 :=
      nanos_rangeU64 state.rng rfl rfl (by decide)
    rcases hdraw : state.rng.rangeU64 2000 4000 with ⟨millis, rng''⟩
    simp only [hdraw] at hlate hearly
    refine ⟨state.model, state.core.scheduleFault (.fromMillis millis) .healAll, ?_, ?_, ?_, ?_, ?_⟩
    · simp only [lowerSwarm, hselect, hfold, except_bind_eq_ok]
      exact ⟨state, rfl, by simp only [hcut, and_self, if_true, hdraw]; rfl⟩
    · intro event hevent
      rcases mem_scheduleFault.mp hevent with rfl | hevent
      · exact hearly
      · exact (hinjured.early event hevent).trans (by decide +kernel)
    · intro event hevent a b hkind
      rcases mem_scheduleFault.mp hevent with rfl | hevent
      · simp at hkind
      · exact (hinjured.cuts event hevent a b hkind).1
    · intro event hevent a b hkind
      rcases mem_scheduleFault.mp hevent with rfl | hevent
      · simp at hkind
      · refine ⟨_, mem_scheduleFault.mpr (.inl rfl), rfl, Duration.lt_iff.mpr ?_⟩
        exact ((hinjured.cuts event hevent a b hkind).2.1.trans (by decide +kernel)).trans_le hlate
    · intro event hevent n hkind
      rcases mem_scheduleFault.mp hevent with rfl | hevent
      · simp at hkind
      · obtain ⟨later, hlater, hrestart⟩ := hinjured.restarts event hevent n hkind
        exact ⟨later, mem_scheduleFault.mpr (.inr hlater), hrestart⟩
  · refine ⟨state.model, state.core, ?_, fun event hevent ↦ ?_, fun event hevent a b hkind ↦ ?_,
      fun event hevent a b hkind ↦ ?_, hinjured.restarts⟩
    · simp only [lowerSwarm, hselect, hfold, except_bind_eq_ok]
      exact ⟨state, rfl, by simp only [hcut]; rfl⟩
    · exact (hinjured.early event hevent).trans (by decide +kernel)
    · exact absurd (hinjured.cuts event hevent a b hkind).2.2 hcut
    · exact absurd (hinjured.cuts event hevent a b hkind).2.2 hcut

/-! ### Partition windows -/

/-- A partition was applied before a position, and no heal since. -/
def CutBefore (taken : List (Scheduled N)) (j : ℕ) : Prop :=
  ∃ i < j, (∃ event, taken[i]? = some event ∧ ∃ a b, event.kind = .fault (.partition a b)) ∧
    ∀ (k : ℕ) (event : Scheduled N), i < k → k < j → taken[k]? = some event →
      event.kind ≠ .fault .healAll

theorem partitions_crash (core : SchedCore N) (n : NodeId) :
    (core.applyFault (.crash n)).2.partitions = core.partitions := by
  obtain ⟨history, pendingOps, hcrash⟩ := applyFault_crash core n
  rw [hcrash]

/-- A turn after which the cluster is partitioned applies a partition, or it leaves one active. -/
theorem Turn.partitions_ne_nil {state next : RunState N} {event : Scheduled N}
    (h : Turn codec ops state event next) (hcut : next.core.partitions ≠ []) :
    (∃ a b, event.kind = .fault (.partition a b)) ∨
      state.core.partitions ≠ [] ∧ event.kind ≠ .fault .healAll := by
  cases h with
  | skip hpop hbelow hresolve =>
    cases resolves_of_resolve hresolve with
    | skipped hclient hfault => exact .inr ⟨hcut, hfault _⟩
  | @fire queue core popped next hpop hbelow hresolve hhandle =>
    rw [(sameCluster_handle hhandle).partitions_eq] at hcut
    cases resolves_of_resolve hresolve with
    | deliver hkind _ => exact .inr ⟨hcut, by simp [hkind]⟩
    | timer hkind _ _ => exact .inr ⟨hcut, by simp [hkind]⟩
    | clientOp hkind => exact .inr ⟨hcut, by simp [hkind]⟩
    | @fault action hkind =>
      cases action with
      | partition a b => exact .inl ⟨a, b, hkind⟩
      | healAll => exact absurd rfl hcut
      | crash n =>
        rw [partitions_crash] at hcut
        exact .inr ⟨hcut, by simp [hkind]⟩
      | restart n => exact .inr ⟨hcut, by simp [hkind]⟩

section Executions

variable {data : PlanData} {workload : Option Strategy} {seed : Seed}

theorem Execution.partitions_started (e : Execution N data workload codec seed) :
    e.started.core.partitions = [] := by
  have hprepared : e.prepared.partitions = [] :=
    prepared_core (P := fun core ↦ core.partitions = []) (fun _ _ _ h ↦ h) (fun _ _ h ↦ h)
      e.prepare_eq fun _ _ ↦ rfl
  exact (sameCluster_started e.start_eq).partitions_eq.trans hprepared

/-- While a partition is active, no heal has been applied since the last one. -/
theorem Execution.cutBefore (e : Execution N data workload codec seed) :
    ∀ (j : ℕ) (state : RunState N), e.states[j]? = some state → state.core.partitions ≠ [] →
      CutBefore e.taken j := by
  intro j
  induction j with
  | zero =>
    intro state hstate hcut
    obtain rfl : e.started = state := by simpa [Execution.states] using hstate
    exact absurd e.partitions_started hcut
  | succ j ih =>
    intro state hstate hcut
    obtain ⟨before, event, hbefore, htaken, hturn⟩ := e.exists_turn_to hstate
    rcases hturn.partitions_ne_nil hcut with hpartition | ⟨hactive, hheal⟩
    · exact ⟨j, Nat.lt_succ_self j, ⟨event, htaken, hpartition⟩, fun k _ hjk hkj ↦ by omega⟩
    · obtain ⟨i, hi, hpartition, hsince⟩ := ih before hbefore hactive
      refine ⟨i, Nat.lt_succ_of_lt hi, hpartition, fun k event' hik hkj hevent' ↦ ?_⟩
      rcases Nat.lt_succ_iff_lt_or_eq.mp hkj with hlt | rfl
      · exact hsince k event' hik hlt hevent'
      · exact Option.some.inj (hevent'.symm.trans htaken) ▸ hheal

/-! ### Recovery -/

/-- No partition is active and no node is crashed. -/
def Healthy (core : SchedCore N) : Prop := core.partitions = [] ∧ core.crashed = []

/-- From a position on, the faults of an execution are over: every scheduled fault has been applied
before it, within four seconds, and no partition is active and no node is crashed from there to the
end of the run, which lies after these four seconds. -/
structure Heals (e : Execution N data workload codec seed) (j : ℕ) : Prop where
  applied : ∀ event ∈ e.prepared.queue.toList, ∃ k < j, e.taken[k]? = some event
  ended : ∀ k event, e.taken[k]? = some event → j ≤ k → faultOf event = none
  early : ∃ state, e.states[j]? = some state ∧ state.core.now < .fromSecs 4
  window : .fromSecs 4 < e.final.core.horizon
  healthy : ∀ k state, j ≤ k → e.states[k]? = some state → Healthy state.core
  final : Healthy e.final.core

/-- Of two taken events, the one with the later time is taken later. -/
theorem lt_of_fireAt_lt {taken : List (Scheduled N)}
    (h : taken.Pairwise fun first second ↦ first.key < second.key) {i k : ℕ}
    {first second : Scheduled N} (hfirst : taken[i]? = some first)
    (hsecond : taken[k]? = some second) (hlt : first.fireAt < second.fireAt) : i < k := by
  by_contra hle
  obtain ⟨hi, rfl⟩ := List.getElem?_eq_some_iff.mp hfirst
  obtain ⟨hk, rfl⟩ := List.getElem?_eq_some_iff.mp hsecond
  rcases (not_lt.mp hle).lt_or_eq with hki | rfl
  · have hkey := List.pairwise_iff_getElem.mp h k i hk hi hki
    rcases Prod.Lex.toLex_lt_toLex.mp hkey with htime | ⟨htime, -⟩
    · exact lt_asymm hlt htime
    · exact hlt.ne htime.symm
  · exact lt_irrefl _ hlt

/-- The position after the last fault event. -/
theorem exists_last_fault (taken : List (Scheduled N)) :
    ∃ j ≤ taken.length,
      (∀ k event, taken[k]? = some event → j ≤ k → faultOf event = none) ∧
      ∀ i, j = i + 1 → ∃ event, taken[i]? = some event ∧ faultOf event ≠ none := by
  induction taken using List.reverseRecOn with
  | nil => exact ⟨0, le_rfl, by simp, by simp⟩
  | append_singleton taken last ih =>
    by_cases hlast : faultOf last = none
    · obtain ⟨j, hj, hover, hfault⟩ := ih
      refine ⟨j, hj.trans (by simp), fun k event hevent hk ↦ ?_, fun i hi ↦ ?_⟩
      · rcases lt_or_ge k taken.length with hlt | hge
        · rw [List.getElem?_append_left hlt] at hevent
          exact hover k event hevent hk
        · have hmem := List.mem_of_getElem? (List.getElem?_append_right hge ▸ hevent)
          rw [List.mem_singleton.mp hmem]
          exact hlast
      · obtain ⟨event, hevent, hne⟩ := hfault i hi
        refine ⟨event, ?_, hne⟩
        rw [List.getElem?_append_left (by omega)]
        exact hevent
    · refine ⟨taken.length + 1, by simp, fun k event hevent hk ↦ ?_, fun i hi ↦ ?_⟩
      · rw [List.getElem?_eq_none (by simpa using hk)] at hevent
        cases hevent
      · obtain rfl : taken.length = i := by omega
        exact ⟨last, by simp, hlast⟩

/-- An execution whose schedule recovers heals. -/
theorem Execution.heals (e : Execution N data workload codec seed)
    (hrecovers : Recovers (nodeCount data) e.prepared.queue.toList) : ∃ j, Heals e j := by
  have hordered := e.queueOrdered
  have hwindow : Duration.fromSecs 4 < e.final.core.horizon :=
    lt_of_lt_of_le (by decide +kernel) e.le_horizon
  have hearly : ∀ event ∈ e.prepared.queue.toList, event.fireAt < .fromSecs 4 := fun event hevent ↦
    Duration.lt_iff.mpr ((hrecovers.early event hevent).trans_eq (by decide +kernel))
  have htaken := e.faultEvents_taken fun event hevent ↦ (hearly event hevent).trans hwindow
  have hscheduled {k : ℕ} {event : Scheduled N} (hk : e.taken[k]? = some event)
      (hfault : faultOf event ≠ none) : event ∈ e.prepared.queue.toList := by
    rw [← htaken]
    refine mem_faultEvents.mpr ⟨List.mem_of_getElem? hk, ?_⟩
    obtain ⟨action, haction⟩ := Option.ne_none_iff_exists'.mp hfault
    exact ⟨action, faultOf_eq_some_iff.mp haction⟩
  have happlied {event : Scheduled N} (hevent : event ∈ e.prepared.queue.toList) :
      ∃ k : ℕ, e.taken[k]? = some event := by
    rw [← htaken] at hevent
    exact List.mem_iff_getElem?.mp (mem_faultEvents.mp hevent).1
  obtain ⟨j, hj, hover, hlast⟩ := exists_last_fault e.taken
  have hbefore {k : ℕ} {event : Scheduled N} {action : FaultAction} (hk : e.taken[k]? = some event)
      (hkind : event.kind = .fault action) : k < j := by
    by_contra hle
    have hnone := hover k event hk (not_lt.mp hle)
    rw [faultOf_eq_some_iff.mpr hkind] at hnone
    cases hnone
  -- A partition or a crash is undone by a later fault event, which also comes before `j`.
  have hhealthy (k : ℕ) (state : RunState N) (hk : j ≤ k) (hstate : e.states[k]? = some state) :
      Healthy state.core := by
    constructor
    · by_contra hcut
      obtain ⟨i, -, ⟨event, hevent, a, b, hkind⟩, hsince⟩ := e.cutBefore k state hstate hcut
      have hin := hscheduled hevent (by rw [faultOf_eq_some_iff.mpr hkind]; simp)
      obtain ⟨later, hlater, hheal, hlt⟩ := hrecovers.heals event hin a b hkind
      obtain ⟨m, hm⟩ := happlied hlater
      exact hsince m later (lt_of_fireAt_lt hordered.increasing hevent hm hlt)
        ((hbefore hm hheal).trans_le hk) hm hheal
    · refine List.eq_nil_iff_forall_not_mem.mpr fun n hn ↦ ?_
      obtain ⟨i, -, ⟨event, hevent, hkind⟩, hsince⟩ := (e.mem_crashed_iff n k state hstate).mp hn
      have hin := hscheduled hevent (by rw [faultOf_eq_some_iff.mpr hkind]; simp)
      obtain ⟨later, hlater, hrestart, hlt⟩ := hrecovers.restarts event hin n hkind
      obtain ⟨m, hm⟩ := happlied hlater
      exact hsince m later (lt_of_fireAt_lt hordered.increasing hevent hm hlt)
        ((hbefore hm hrestart).trans_le hk) hm hrestart
  have hlength : e.taken.length = e.steps.length := List.length_map _
  refine ⟨j, fun event hevent ↦ ?_, hover, ?_, hwindow, hhealthy, ?_⟩
  · obtain ⟨k, hk⟩ := happlied hevent
    rw [← htaken] at hevent
    obtain ⟨action, hkind⟩ := (mem_faultEvents.mp hevent).2
    exact ⟨k, hbefore hk hkind, hk⟩
  · cases j with
    | zero =>
      refine ⟨e.started, rfl, ?_⟩
      rw [now_started e.prepare_eq e.start_eq]
      decide +kernel
    | succ i =>
      obtain ⟨event, hevent, hfault⟩ := hlast i rfl
      obtain ⟨before, next, -, hnext, hturn⟩ := e.exists_turn hevent
      refine ⟨next, hnext, ?_⟩
      rw [hturn.now_eq]
      exact hearly _ (hscheduled hevent hfault)
  · obtain ⟨hstops, -⟩ := e.loop.stops
    obtain ⟨hpartitions, hcrashed⟩ := hhealthy _ _ (hj.trans_eq hlength) e.states_last
    have hcore := hstops.core_eq
    exact ⟨by rw [hcore]; exact hpartitions, by rw [hcore]; exact hcrashed⟩

/-- Preparing a swarm plan in liveness mode succeeds, with a schedule from which the cluster
recovers. -/
theorem prepareCore_swarm {kinds : List FaultKind}
    (hfaults : data.faults = some ⟨.swarm kinds, .liveness⟩) :
    ∃ prepared, prepareCore N data seed = .ok prepared ∧
      Recovers (nodeCount data) prepared.queue.toList := by
  obtain ⟨horizon, hhorizon⟩ : ∃ horizon, runHorizon data = .ok horizon := by
    have hlatest : latestFault (horizonFaults data) = .fromSecs 5 := by
      rw [horizonFaults, hfaults]
      rfl
    obtain ⟨sum, hsum⟩ := exists_addDuration
      (by decide +kernel : (Duration.fromSecs 5).nanos + (Duration.fromSecs 10).nanos ≤ maxNanos)
    refine ⟨max sum (.fromSecs 10), ?_⟩
    rw [runHorizon, hlatest, hsum]
    rfl
  obtain ⟨model, core, hlower, hrecovers⟩ := lowerSwarm_liveness (N := N) kinds
    (data.network.getD .orderedReliable)
    { SchedCore.new seed.val (data.network.getD .orderedReliable) (nodeCount data) with
      horizon := horizon } rfl (.new (seed.val ^^^ 0xF0F0F0F0)) (nodeCount data)
  refine ⟨{ core with model := model }, ?_, hrecovers⟩
  simp only [prepareCore, except_bind_eq_ok]
  refine ⟨horizon, hhorizon, (model, core), ?_, rfl⟩
  rw [hfaults]
  exact hlower

/-- Swarm faults in liveness mode, for every list of kinds, node count and seed: every cut that is
scheduled splits the cluster, and in every run whose loop ends the cluster is healthy once all
faults are applied, within four seconds and before the horizon. -/
theorem swarm_liveness_heals {kinds : List FaultKind}
    (hfaults : data.faults = some ⟨.swarm kinds, .liveness⟩) :
    (∃ prepared, prepareCore N data seed = .ok prepared ∧
      ∀ event ∈ prepared.queue.toList, ∀ a b, event.kind = .fault (.partition a b) →
        Splits (nodeCount data) a b) ∧
    ∀ (fuel : ℕ) (nodeDef : Option NodeDef) (run : TypedRun N),
      runDeterministic fuel data nodeDef workload codec seed = .ok (.ok run) →
        ∃ e : Execution N data workload codec seed, e.result = run ∧ ∃ j, Heals e j := by
  obtain ⟨prepared, hprepare, hrecovers⟩ := prepareCore_swarm (N := N) hfaults
  refine ⟨⟨prepared, hprepare, hrecovers.splits⟩, fun fuel nodeDef run h ↦ ?_⟩
  obtain ⟨e, rfl⟩ := exists_execution h
  obtain rfl := Except.ok.inj (hprepare.symm.trans e.prepare_eq)
  exact ⟨e, rfl, e.heals hrecovers⟩

end Executions

/-- Three counting nodes under swarm faults with repeated kinds, in liveness mode. -/
def swarmPlan : PlanData :=
  ⟨3, none, some ⟨.swarm [.partitions, .crashRestart, .partitions, .crashRestart], .liveness⟩, 1,
    some (.new [.new ⟨1⟩ .nil] .swarm)⟩

/-- A run under these faults heals. -/
theorem swarmPlan_heals :
    ∃ run, runDeterministic 12 swarmPlan none none (some counterCodec) ⟨0⟩ = .ok (.ok run) ∧
      ∃ e : Execution counter swarmPlan none (some counterCodec) ⟨0⟩, e.result = run ∧
        ∃ j, Heals e j := by
  obtain ⟨run, hrun⟩ := exists_run_of_isSome (N := counter)
    (x := runDeterministic 12 swarmPlan none none (some counterCodec) ⟨0⟩) (by decide +kernel)
  exact ⟨run, hrun, (swarm_liveness_heals rfl).2 12 none run hrun⟩

end Propsim.Simulator
