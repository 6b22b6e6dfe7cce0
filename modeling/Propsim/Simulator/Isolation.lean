import Propsim.Simulator.Messages
import Propsim.Simulator.SwarmLiveness

/-!
# Isolation by a partition

The network consults the partition when a message is sent, and not again when it arrives. So while a
partition is active no message is sent across it, and what is dispatched across it was in flight
when the partition began (`runDeterministic_isolatesSends`, and `Arrives.isolatesSends` for a run
that need not come to an end); such a message is dispatched (`straddling_not_isolates`).
-/

set_option autoImplicit false
set_option relaxedAutoImplicit false

namespace Propsim.Simulator

open Foundation Interchange Propsim.Core

variable {N : Node} {codec : Option (ClientCodec N)} {ops : List FrozenOp}

/-! ### Partition windows -/

/-- A moment at which a partition or a heal is applied. -/
def Moment.Regroups (m : Moment N) : Prop :=
  ∃ event, m.act = .take event ∧
    (event.kind = .fault .healAll ∨ ∃ a b, event.kind = .fault (.partition a b))

/-- Only a partition or a heal changes the groups. -/
theorem Moment.Leads.partitions_eq {m : Moment N} {core' : SchedCore N} (h : m.Leads core')
    (hgroups : ¬ m.Regroups) : core'.partitions = m.core.partitions := by
  obtain ⟨core, act⟩ := m
  cases act with
  | send a b msg =>
    rw [scheduleDelivery_frame h]
  | setTimer node timer after =>
    obtain ⟨fireAt, -, rfl⟩ := armTimer_eq_ok h
    rfl
  | cancelTimer node timer =>
    obtain rfl : core' = core.cancelTimer node timer := h
    rfl
  | take event =>
    obtain ⟨queue, popped, -, -, hresolve⟩ := h
    cases resolves_of_resolve hresolve with
    | skipped => rfl
    | deliver => rfl
    | timer => rfl
    | clientOp => rfl
    | @fault action hkind =>
      cases action with
      | partition a b => exact absurd ⟨event, rfl, .inr ⟨a, b, hkind⟩⟩ hgroups
      | healAll => exact absurd ⟨event, rfl, .inl hkind⟩ hgroups
      | crash n => exact partitions_crash _ n
      | restart n => rfl

/-- A partition sets the groups. -/
theorem Moment.Leads.partition {m : Moment N} {core' : SchedCore N} (h : m.Leads core')
    {event : Scheduled N} (hact : m.act = .take event) {a b : List NodeId}
    (hkind : event.kind = .fault (.partition a b)) : core'.partitions = [a, b] := by
  rw [Moment.Leads, hact] at h
  obtain ⟨queue, popped, -, -, hresolve⟩ := h
  rw [SchedCore.resolve, hkind] at hresolve
  obtain ⟨-, rfl⟩ := Prod.mk.inj hresolve
  rfl

/-- Since a partition at `p`, no other partition and no heal has been applied. -/
def PartitionedSince (log : List (Moment N)) (p : ℕ) (a b : List NodeId) : Prop :=
  (∃ core event, log[p]? = some ⟨core, .take event⟩ ∧ event.kind = .fault (.partition a b)) ∧
    ∀ (j : ℕ) (m : Moment N), p < j → log[j]? = some m → ¬ m.Regroups

/-- While a partition is active, the groups are its two groups. -/
theorem MomentStep.partitioned {x y : List (Moment N) × SchedCore N} (h : MomentStep x y)
    (hx : ∀ p a b, PartitionedSince x.1 p a b → x.2.partitions = [a, b]) :
    ∀ p a b, PartitionedSince y.1 p a b → y.2.partitions = [a, b] := by
  rintro p a b ⟨⟨core, event, hp, hkind⟩, hsince⟩
  rcases h.log_eq with hlog | ⟨m, hcore, hlog, hleads⟩
  · have hsame : y.2.partitions = x.2.partitions := by
      cases h with
      | quiet => rfl
      | issue => rfl
      | send => simp at hlog
      | setTimer => simp at hlog
      | cancelTimer => simp at hlog
      | take => simp at hlog
    rw [hlog] at hp hsince
    exact hsame.trans (hx p a b ⟨⟨core, event, hp, hkind⟩, hsince⟩)
  · rw [hlog] at hp hsince
    rcases lt_or_ge p x.1.length with hlt | hge
    · rw [List.getElem?_append_left hlt] at hp
      have hlast : ¬ m.Regroups := hsince x.1.length m hlt (by simp)
      rw [hleads.partitions_eq hlast, hcore]
      refine hx p a b ⟨⟨core, event, hp, hkind⟩, fun j m' hpj hj ↦ hsince j m' hpj ?_⟩
      rw [List.getElem?_append_left (List.getElem?_eq_some_iff.mp hj).1]
      exact hj
    · have hm := List.mem_of_getElem? (List.getElem?_append_right hge ▸ hp)
      obtain rfl := List.mem_singleton.mp hm
      exact hleads.partition rfl hkind

section Courses

variable {data : PlanData} {workload : Option Strategy} {seed : Seed}

/-- Nothing is partitioned when a run is prepared. -/
theorem partitioned_of_steps {core₀ core : SchedCore N} {log : List (Moment N)}
    (h : MomentSteps ([], core₀) (log, core)) {p : ℕ} {a b : List NodeId}
    (hp : PartitionedSince log p a b) : core.partitions = [a, b] :=
  h.invariant (P := fun log core ↦ ∀ p a b, PartitionedSince log p a b → core.partitions = [a, b])
    (fun _ _ hstep ↦ hstep.partitioned) (fun _ _ _ ⟨⟨_, _, hnone, _⟩, _⟩ ↦ by simp at hnone)
      p a b hp

/-- Two nodes are in one group of a partition. -/
def Together (a b : List NodeId) (n n' : NodeId) : Prop := n ∈ a ∧ n' ∈ a ∨ n ∈ b ∧ n' ∈ b

/-- A moment `k` is in the window of the partition that is applied at `p`. -/
def InWindow (log : List (Moment N)) (p k : ℕ) (a b : List NodeId) : Prop :=
  p < k ∧ PartitionedSince (log.take k) p a b

/-- While a partition is active, every message that is dispatched stays in one of its groups. -/
def Isolates (log : List (Moment N)) : Prop :=
  ∀ p k a b, InWindow log p k a b → ∀ event n n' msg, DispatchesAt log k event n n' msg →
    Together a b n n'

/-- While a partition is active, every message that is dispatched stays in one of its groups, or it
was sent before the partition was applied; and a message sent between the groups is not queued. -/
structure IsolatesSends (log : List (Moment N)) : Prop where
  inFlight : ∀ p k a b, InWindow log p k a b → ∀ event n n' msg,
    DispatchesAt log k event n n' msg → ¬ Together a b n n' →
      ∃ i < p, ∃ core, log[i]? = some ⟨core, .send n n' msg⟩ ∧ event ∈ core.copies n n' msg
  dropped : ∀ p k a b, InWindow log p k a b → ∀ core n n' msg,
    log[k]? = some ⟨core, .send n n' msg⟩ → ¬ Together a b n n' → core.copies n n' msg = []

theorem PartitionedSince.shorten {log : List (Moment N)} {p k : ℕ} {a b : List NodeId}
    (h : PartitionedSince (log.take k) p a b) {i : ℕ} (hpi : p < i) (hik : i ≤ k) :
    PartitionedSince (log.take i) p a b := by
  obtain ⟨⟨core, event, hp, hkind⟩, hsince⟩ := h
  have hsame {j : ℕ} (hj : j < i) : (log.take i)[j]? = (log.take k)[j]? := by
    rw [List.getElem?_take_of_lt hj, List.getElem?_take_of_lt (hj.trans_le hik)]
  refine ⟨⟨core, event, (hsame hpi).trans hp, hkind⟩, fun j m hpj hj ↦ hsince j m hpj ?_⟩
  have hlt : j < i := by
    have hlength := (List.getElem?_eq_some_iff.mp hj).1
    rw [List.length_take] at hlength
    exact hlength.trans_le (min_le_left _ _)
  exact (hsame hlt).symm.trans hj

/-- Between the groups of an active partition nothing is queued. -/
theorem Course.copies_eq_nil (c : Course N data seed) {p k : ℕ}
    {a b : List NodeId} (hwindow : InWindow c.moments p k a b) {core : SchedCore N} {n n' : NodeId}
    {msg : N.Msg} (hk : c.moments[k]? = some ⟨core, .send n n' msg⟩)
    (happart : ¬ Together a b n n') : core.copies n n' msg = [] := by
  refine List.eq_nil_iff_forall_not_mem.mpr fun event hevent ↦ happart ?_
  obtain ⟨sampled, hcopy, -⟩ := c.isCopy_at hk hevent
  have hgroups : core.partitions = [a, b] :=
    partitioned_of_steps (c.steps.through hk).1 hwindow.2
  obtain ⟨-, -, hwhole | ⟨group, hgroup, hin⟩⟩ := connected_iff.mp hcopy.connected
  · rw [hgroups] at hwhole
    cases hwhole
  · rw [hgroups, List.mem_cons, List.mem_singleton] at hgroup
    rcases hgroup with rfl | rfl
    · exact .inl hin
    · exact .inr hin

/-- What a partition lets through was in flight when it began, whether or not the run comes to its
end. -/
theorem Course.isolatesSends (c : Course N data seed) : IsolatesSends c.moments := by
  refine ⟨fun p k a b hwindow event n n' msg hdispatch happart ↦ ?_,
    fun p k a b hwindow core n n' msg hk happart ↦ c.copies_eq_nil hwindow hk happart⟩
  obtain ⟨core, hk, hresolve⟩ := hdispatch
  obtain ⟨i, hik, core', hi, hcopy⟩ := c.stems hk (resolve_eq_deliver.mp hresolve).1
  refine ⟨i, ?_, core', hi, hcopy⟩
  by_contra hle
  rcases (not_lt.mp hle).lt_or_eq with hpi | rfl
  · have hnone := c.copies_eq_nil ⟨hpi, hwindow.2.shorten hpi hik.le⟩ hi happart
    rw [hnone] at hcopy
    cases hcopy
  · obtain ⟨⟨core₀, event₀, hp, -⟩, -⟩ := hwindow.2
    rw [List.getElem?_take_of_lt hik, hi] at hp
    cases hp

/-- What a partition lets through up to a state that a run reaches was in flight when it began. -/
theorem Arrives.isolatesSends {prepared : SchedCore N} {started state : RunState N}
    {log : List (Moment N)} (h : Arrives codec ops prepared started log state)
    (hprepare : prepareCore N data seed = .ok prepared)
    (hstart : startRun codec ops prepared = .ok started) : IsolatesSends log :=
  (h.course hprepare hstart).isolatesSends

/-- In every run whose loop ends, what a partition lets through was in flight when it began. -/
theorem runDeterministic_isolatesSends {fuel : ℕ} {nodeDef : Option NodeDef} {run : TypedRun N}
    (h : runDeterministic fuel data nodeDef workload codec seed = .ok (.ok run)) :
    ∃ e : Execution N data workload codec seed, e.result = run ∧ IsolatesSends e.moments := by
  obtain ⟨e, he⟩ := exists_execution h
  exact ⟨e, he, e.course.isolatesSends⟩

end Courses

/-! ### A message across the cut -/

/-- The fault that a moment applies, and the message that it dispatches. -/
def Moment.observed (m : Moment N) : Option FaultAction × Option (NodeId × NodeId) :=
  (m.taken.bind faultOf,
    match m.taken.bind fun event ↦ (m.core.resolve event).1 with
    | some (.deliver a b _) => some (a, b)
    | _ => none)

theorem Moment.fault_of_observed {m : Moment N} {action : FaultAction}
    (h : m.observed.1 = some action) :
    ∃ event, m.act = .take event ∧ event.kind = .fault action := by
  obtain ⟨event, hevent, hfault⟩ := Option.bind_eq_some_iff.mp h
  exact ⟨event, Moment.taken_eq_some.mp hevent, faultOf_eq_some_iff.mp hfault⟩

theorem Moment.dispatch_of_observed {m : Moment N} {a b : NodeId}
    (h : m.observed.2 = some (a, b)) :
    ∃ event msg, m.act = .take event ∧ (m.core.resolve event).1 = some (.deliver a b msg) := by
  simp only [Moment.observed] at h
  split at h
  · rename_i a' b' msg hpopped
    obtain ⟨rfl, rfl⟩ := Prod.mk.inj (Option.some.inj h)
    obtain ⟨event, hevent, hresolve⟩ := Option.bind_eq_some_iff.mp hpopped
    exact ⟨event, msg, Moment.taken_eq_some.mp hevent, hresolve⟩
  · cases h

/-- A network that delays by five milliseconds, an operation that sends after one millisecond, and a
partition of the two couriers after three. -/
def straddlingPlan : PlanData :=
  ⟨2, some ⟨⟨5, 5⟩, .never, .never, true⟩,
    some ⟨.scripted [⟨.fromMillis 3, .partition [⟨0⟩] [⟨1⟩]⟩], .safety⟩, 1,
    some (.new [.new ⟨0⟩ .nil] .swarm)⟩

/-- The message that is in flight when the partition begins is dispatched across it. -/
theorem straddling_not_isolates :
    ∃ run, runDeterministic 8 straddlingPlan none none (some courierCodec) ⟨0⟩ = .ok (.ok run) ∧
      ∃ e : Execution courier straddlingPlan none (some courierCodec) ⟨0⟩, e.result = run ∧
        ¬ Isolates e.moments := by
  obtain ⟨run, hrun⟩ := exists_run_of_isSome (N := courier)
    (x := runDeterministic 8 straddlingPlan none none (some courierCodec) ⟨0⟩) (by decide +kernel)
  obtain ⟨e, he⟩ := exists_execution hrun
  refine ⟨run, hrun, e, he, fun hisolates ↦ ?_⟩
  have hobserved : e.moments.map Moment.observed =
      [(none, none), (none, none), (none, none), (some (.partition [⟨0⟩] [⟨1⟩]), none),
        (none, some (⟨0⟩, ⟨1⟩)), (none, some (⟨0⟩, ⟨1⟩))] :=
    e.of_compute (f := fun e ↦ e.moments.map Moment.observed) 8 (by decide +kernel)
  have hat (k : ℕ) := congrArg (·[k]?) hobserved
  simp only [List.getElem?_map] at hat
  obtain ⟨⟨core, act⟩, hp, hcut⟩ := Option.map_eq_some_iff.mp (hat 3)
  obtain ⟨⟨core', act'⟩, hk, hmessage⟩ := Option.map_eq_some_iff.mp (hat 4)
  obtain ⟨event, rfl, hkind⟩ := Moment.fault_of_observed (congrArg Prod.fst hcut)
  obtain ⟨event', msg, rfl, hresolve⟩ := Moment.dispatch_of_observed (congrArg Prod.snd hmessage)
  have hwindow : InWindow e.moments 3 4 [⟨0⟩] [⟨1⟩] := by
    refine ⟨by decide, ⟨core, event, ?_, hkind⟩, fun j m hj hm ↦ ?_⟩
    · rw [List.getElem?_take_of_lt (by decide)]
      exact hp
    · have hlength := (List.getElem?_eq_some_iff.mp hm).1
      rw [List.length_take] at hlength
      omega
  rcases hisolates 3 4 [⟨0⟩] [⟨1⟩] hwindow event' ⟨0⟩ ⟨1⟩ msg ⟨core', hk, hresolve⟩ with
    ⟨-, hin⟩ | ⟨hin, -⟩ <;> simp at hin

/-- What the partition lets through in this run was in flight. -/
theorem straddling_isolatesSends :
    ∃ run, runDeterministic 8 straddlingPlan none none (some courierCodec) ⟨0⟩ = .ok (.ok run) ∧
      ∃ e : Execution courier straddlingPlan none (some courierCodec) ⟨0⟩, e.result = run ∧
        IsolatesSends e.moments := by
  obtain ⟨run, hrun⟩ := exists_run_of_isSome (N := courier)
    (x := runDeterministic 8 straddlingPlan none none (some courierCodec) ⟨0⟩) (by decide +kernel)
  exact ⟨run, hrun, runDeterministic_isolatesSends hrun⟩

end Propsim.Simulator
