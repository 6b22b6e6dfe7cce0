import Propsim.Simulator.CheckLog
import Propsim.Simulator.DriveVerdicts

/-!
# What the oracles of an accepted backend are given

Negotiation accepts a white-box oracle on an executor with world snapshots. The typed drive builds
every output that it hands to an oracle from the history of a run alone, so such an oracle is
checked against outputs without snapshots (`accepted_needsMet_iff`). What is checked against what is
read off the log of `tryRunLogged`, whose results are those of `tryRun`.
-/

set_option autoImplicit false
set_option relaxedAutoImplicit false

namespace Propsim.Simulator

open Foundation Interchange Propsim.Core

variable {N : Node}

/-- Negotiation accepts a plan on a backend, so `try_run` goes on to execute it. -/
structure Accepted (plan : TestPlan N) (backend : Backend) : Prop where
  valid : backend.validate = .ok ()
  properties : backend.executor.capabilities.worldSnapshots = true ∨ plan.properties = []

/-- Every oracle is checked only against outputs that contain what it needs. -/
def NeedsMet (propsimSeed : Option String) (plan : TestPlan N) (backend : Backend) : Prop :=
  ∀ fuel, (tryRunLogged fuel propsimSeed plan backend).Always fun check ↦
    check.oracle.needs = .world → check.output.worldTrace.isSome = true

/-- The outputs that oracles are checked against have world snapshots exactly when the executor
claims to produce them. -/
def SnapshotsAsClaimed (propsimSeed : Option String) (plan : TestPlan N) (backend : Backend) :
    Prop :=
  ∀ fuel, (tryRunLogged fuel propsimSeed plan backend).Always fun check ↦
    check.output.worldTrace.isSome = backend.executor.capabilities.worldSnapshots

/-- The main run of a seed gives a result, and its properties are evaluated. -/
def Driven (fuel : ℕ) (plan : TestPlan N) (seed : Seed) (run : TypedRun N) : Prop :=
  runDeterministic fuel plan.data plan.nodeDef plan.workload plan.client seed = .ok (.ok run) ∧
    ∃ verdicts, evaluateProperties plan.properties run.worldTrace run.events = .ok verdicts

/-- The main run of the first seed gives a result, so the oracles are checked. -/
def ReachesOracles (propsimSeed : Option String) (plan : TestPlan N) : Prop :=
  ∃ fuel run, Driven fuel plan (effectiveSeed propsimSeed 0) run

/-! ### When a seed checks its oracles -/

/-- A seed that is driven to its verdicts has a result. -/
theorem driven_of_driveSeed {fuel : ℕ} {plan : TestPlan N} {backend : Backend} {seed : Seed}
    {verdicts : List NamedVerdict} (h : driveSeed fuel plan backend seed = .ok (.ok verdicts)) :
    ∃ run, Driven fuel plan seed run := by
  rw [driveSeed, except_bind_eq_ok] at h
  obtain ⟨outcome, hrun, h⟩ := h
  cases outcome with
  | error failure => simp [except_pure_eq_ok] at h
  | ok run =>
    simp only [except_bind_eq_ok] at h
    obtain ⟨propVerdicts, hprops, -⟩ := h
    exact ⟨run, hrun, propVerdicts, hprops⟩

/-- A seed checks an oracle only when it has a result. -/
theorem driven_of_mem_log {fuel : ℕ} {plan : TestPlan N} {backend : Backend} {seed : Seed}
    {check : Check} (h : check ∈ (driveSeedLogged fuel plan backend seed).log) :
    ∃ run, Driven fuel plan seed run := by
  rw [driveSeedLogged, Logged.mem_log_bind] at h
  rcases h with h | ⟨outcome, hrun, h⟩
  · cases h
  cases outcome with
  | error failure => cases h
  | ok run =>
    rcases Logged.mem_log_bind.mp h with h | ⟨verdicts, hprops, -⟩
    · cases h
    · exact ⟨run, hrun, verdicts, hprops⟩

/-- A seed with a result checks every attached oracle against the output of its main run. -/
theorem Driven.mem_log {fuel : ℕ} {plan : TestPlan N} {seed : Seed} {run : TypedRun N}
    (h : Driven fuel plan seed run) {backend : Backend} {o : Oracle} (ho : o ∈ backend.oracles) :
    ⟨o, run.output seed⟩ ∈ (driveSeedLogged fuel plan backend seed).log := by
  obtain ⟨hrun, verdicts, hprops⟩ := h
  rw [driveSeedLogged, Logged.mem_log_bind]
  refine Or.inr ⟨.ok run, hrun, Logged.mem_log_bind.mpr (Or.inr ⟨verdicts, hprops, ?_⟩)⟩
  refine Logged.mem_log_bind.mpr (Or.inl ?_)
  rw [oracleVerdictsLogged_eq]
  exact List.mem_map_of_mem ho

/-! ### The checks of an accepted plan -/

section Accepted

variable {fuel : ℕ} {propsimSeed : Option String} {plan : TestPlan N} {backend : Backend}

theorem Accepted.tryRunLogged_eq (h : Accepted plan backend)
    (hwhite : backend.executor.capabilities.worldSnapshots = true) :
    tryRunLogged fuel propsimSeed plan backend = driveLogged fuel propsimSeed plan backend := by
  simp [tryRunLogged, h.valid, hwhite]

/-- On an executor with world snapshots, an oracle is checked only when the first seed gives a
result, and its output has no snapshots. -/
theorem Accepted.of_mem_log (h : Accepted plan backend)
    (hwhite : backend.executor.capabilities.worldSnapshots = true) {check : Check}
    (hcheck : check ∈ (tryRunLogged fuel propsimSeed plan backend).log) :
    WithoutSnapshots backend check ∧ ReachesOracles propsimSeed plan := by
  rw [h.tryRunLogged_eq hwhite] at hcheck
  refine ⟨always_driveFromLogged _ _ _ _ _ _ _ check hcheck, fuel, ?_⟩
  rw [driveLogged, ← Nat.succ_pred_eq_of_pos (max_one_pos plan.data.seeds), driveFromLogged,
    Logged.mem_log_bind, result_driveSeedLogged] at hcheck
  rcases hcheck with hfirst | ⟨outcome, hfirst, hlater⟩
  · exact driven_of_mem_log hfirst
  · cases outcome with
    | error failure => cases hlater
    | ok verdicts => exact driven_of_driveSeed hfirst

/-- On an executor with world snapshots, every attached oracle is checked against the output of the
first seed, which has no snapshots. Assumes: that seed gives a result. -/
theorem Accepted.exists_mem_log (h : Accepted plan backend)
    (hwhite : backend.executor.capabilities.worldSnapshots = true)
    (hreaches : ReachesOracles propsimSeed plan) {o : Oracle} (ho : o ∈ backend.oracles) :
    ∃ fuel out, out.worldTrace = none ∧
      ⟨o, out⟩ ∈ (tryRunLogged fuel propsimSeed plan backend).log := by
  obtain ⟨fuel, run, hrun⟩ := hreaches
  refine ⟨fuel, run.output (effectiveSeed propsimSeed 0), rfl, ?_⟩
  rw [h.tryRunLogged_eq hwhite, driveLogged,
    ← Nat.succ_pred_eq_of_pos (max_one_pos plan.data.seeds), driveFromLogged]
  exact Logged.mem_log_bind.mpr (Or.inl (hrun.mem_log ho))

/-- An executor without world snapshots is run once, and every attached oracle is checked against
its output. -/
theorem Accepted.mem_log_iff (h : Accepted plan backend)
    (hblack : backend.executor.capabilities.worldSnapshots = false) {check : Check} :
    check ∈ (tryRunLogged fuel propsimSeed plan backend).log ↔ check.oracle ∈ backend.oracles ∧
      check.output = backend.executor.run plan.data (effectiveSeed propsimSeed 0) := by
  have hproperties : plan.properties = [] := h.properties.resolve_left (by simp [hblack])
  have hlog : (tryRunLogged fuel propsimSeed plan backend).log =
      backend.oracles.map
        (⟨·, backend.executor.run plan.data (effectiveSeed propsimSeed 0)⟩) := by
    simp [tryRunLogged, h.valid, hblack, hproperties, driveErasedLogged, oracleVerdictsLogged_eq,
      bind, pure]
  obtain ⟨o, out⟩ := check
  rw [hlog, List.mem_map]
  constructor
  · rintro ⟨o', ho, heq⟩
    obtain ⟨rfl, rfl⟩ := Check.mk.inj heq
    exact ⟨ho, rfl⟩
  · rintro ⟨ho, rfl⟩
    exact ⟨o, ho, rfl⟩

end Accepted

/-- An accepted backend without world snapshots has no white-box oracles. -/
theorem Accepted.needs_ne_world {plan : TestPlan N} {backend : Backend} (h : Accepted plan backend)
    (hblack : backend.executor.capabilities.worldSnapshots = false) :
    ∀ o ∈ backend.oracles, o.needs ≠ .world := by
  intro o ho hneeds
  have hoffender : o.name ∈ (backend.oracles.filter fun o ↦ o.needs = .world).map (·.name) :=
    List.mem_map_of_mem (List.mem_filter.mpr ⟨ho, by simpa using hneeds⟩)
  have hvalid := h.valid
  rw [Backend.validate, validate, hblack] at hvalid
  simp only [Bool.false_eq_true, if_false] at hvalid
  split at hvalid
  · rename_i hempty
    rw [List.isEmpty_iff] at hempty
    rw [hempty] at hoffender
    exact absurd hoffender (by simp)
  · cases hvalid

/-- An accepted backend gives every oracle what it needs exactly when it has no world snapshots, or
no attached oracle needs them, or the first seed gives no result; and the outputs are as the
executor claims exactly when no oracle is checked, or the executor has no snapshots and its output
neither. -/
theorem accepted_needsMet_iff (propsimSeed : Option String) {plan : TestPlan N} {backend : Backend}
    (h : Accepted plan backend) :
    (NeedsMet propsimSeed plan backend ↔
      backend.executor.capabilities.worldSnapshots = false ∨
        (∀ o ∈ backend.oracles, o.needs ≠ .world) ∨ ¬ ReachesOracles propsimSeed plan) ∧
    (SnapshotsAsClaimed propsimSeed plan backend ↔
      backend.oracles = [] ∨
        if backend.executor.capabilities.worldSnapshots then ¬ ReachesOracles propsimSeed plan
        else (backend.executor.run plan.data (effectiveSeed propsimSeed 0)).worldTrace = none) := by
  cases hworld : backend.executor.capabilities.worldSnapshots with
  | false =>
    refine ⟨iff_of_true (fun fuel check hcheck hneeds ↦ ?_) (Or.inl rfl), ?_, ?_⟩
    · exact absurd hneeds (h.needs_ne_world hworld _ ((h.mem_log_iff hworld).mp hcheck).1)
    · intro hclaimed
      cases horacles : backend.oracles with
      | nil => exact Or.inl rfl
      | cons o rest =>
        have ho : o ∈ backend.oracles := horacles ▸ List.mem_cons_self
        have hnone := hclaimed 0 ⟨o, _⟩ ((h.mem_log_iff hworld).mpr ⟨ho, rfl⟩)
        rw [hworld, Option.isSome_eq_false_iff, Option.isNone_iff_eq_none] at hnone
        exact Or.inr (by simpa using hnone)
    · intro hcondition fuel check hcheck
      obtain ⟨ho, hout⟩ := (h.mem_log_iff hworld).mp hcheck
      rcases hcondition with hnil | hnone
      · simp [hnil] at ho
      · rw [if_neg (by simp)] at hnone
        rw [hout, hnone, hworld]
        rfl
  | true =>
    simp only [if_true]
    refine ⟨⟨fun hmet ↦ ?_, fun hcondition fuel check hcheck hneeds ↦ ?_⟩,
      fun hclaimed ↦ ?_, fun hcondition fuel check hcheck ↦ ?_⟩
    · by_cases hreaches : ReachesOracles propsimSeed plan
      · refine Or.inr (Or.inl fun o ho hneeds ↦ ?_)
        obtain ⟨fuel, out, hnone, hcheck⟩ := h.exists_mem_log hworld hreaches ho
        have hsome : out.worldTrace.isSome = true := hmet fuel ⟨o, out⟩ hcheck hneeds
        simp [hnone] at hsome
      · exact Or.inr (Or.inr hreaches)
    · obtain ⟨⟨ho, -⟩, hreaches⟩ := h.of_mem_log hworld hcheck
      rcases hcondition with hfalse | hneedless | hnot
      · cases hfalse
      · exact absurd hneeds (hneedless _ ho)
      · exact absurd hreaches hnot
    · cases horacles : backend.oracles with
      | nil => exact Or.inl rfl
      | cons o rest =>
        refine Or.inr fun hreaches ↦ ?_
        have ho : o ∈ backend.oracles := horacles ▸ List.mem_cons_self
        obtain ⟨fuel, out, hnone, hcheck⟩ := h.exists_mem_log hworld hreaches ho
        have hsome : out.worldTrace.isSome = true := (hclaimed fuel ⟨o, out⟩ hcheck).trans hworld
        simp [hnone] at hsome
    · obtain ⟨⟨ho, -⟩, hreaches⟩ := h.of_mem_log hworld hcheck
      rcases hcondition with hnil | hnot
      · simp [hnil] at ho
      · exact absurd hreaches hnot

/-- The deterministic executor, with an oracle that reads the world snapshots. -/
def snapshotBackend : Backend where
  executor := ⟨.deterministic, fun _ seed ↦ ⟨.default, none, .new, seed⟩⟩
  oracles := [⟨"snapshots", .world, fun out ↦
    if out.worldTrace.isSome then .valid else .invalid [.new "no-snapshots"]⟩]

theorem accepted_snapshotBackend : Accepted (counterTest counterScript) snapshotBackend :=
  ⟨rfl, Or.inl rfl⟩

/-- The first seed of the counting plan gives a result. -/
theorem reachesOracles_counterScript : ReachesOracles none (counterTest counterScript) := by
  obtain ⟨run, hrun⟩ := exists_run_of_isSome (N := counter)
    (x := runDeterministic 8 counterScript none none (some counterCodec) (effectiveSeed none 0))
    (by decide +kernel)
  exact ⟨8, run, hrun, [], rfl⟩

/-- The accepted white-box oracle is checked against an output without snapshots. -/
theorem snapshotBackend_not_needsMet :
    Accepted (counterTest counterScript) snapshotBackend ∧
      ¬ NeedsMet none (counterTest counterScript) snapshotBackend ∧
      ¬ SnapshotsAsClaimed none (counterTest counterScript) snapshotBackend := by
  obtain ⟨fuel, out, hnone, hcheck⟩ := accepted_snapshotBackend.exists_mem_log rfl
    reachesOracles_counterScript List.mem_cons_self
  refine ⟨accepted_snapshotBackend, fun hmet ↦ ?_, fun hclaimed ↦ ?_⟩
  · have hsome : out.worldTrace.isSome = true := hmet fuel _ hcheck rfl
    simp [hnone] at hsome
  · have hsome : out.worldTrace.isSome = true := hclaimed fuel _ hcheck
    simp [hnone] at hsome

/-- The equivalences on the accepted white-box oracle. -/
theorem snapshotBackend_needsMet_iff :
    (NeedsMet none (counterTest counterScript) snapshotBackend ↔
      snapshotBackend.executor.capabilities.worldSnapshots = false ∨
        (∀ o ∈ snapshotBackend.oracles, o.needs ≠ .world) ∨
        ¬ ReachesOracles none (counterTest counterScript)) ∧
    (SnapshotsAsClaimed none (counterTest counterScript) snapshotBackend ↔
      snapshotBackend.oracles = [] ∨
        if snapshotBackend.executor.capabilities.worldSnapshots then
          ¬ ReachesOracles none (counterTest counterScript)
        else (snapshotBackend.executor.run counterScript
          (effectiveSeed none 0)).worldTrace = none) :=
  accepted_needsMet_iff none accepted_snapshotBackend

end Propsim.Simulator
