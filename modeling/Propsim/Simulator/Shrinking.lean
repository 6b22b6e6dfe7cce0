import Propsim.Simulator.Drive
import Propsim.Simulator.Execution

/-!
# Shrinking a failing operation stream

`shrink_scenario` drops operations from the end of the recovered stream and stops at the first
prefix on which the check passes, so it returns the end of the longest run of failing prefixes
(`exists_of_shrinkLoop`). That is the shortest failing prefix exactly when no failing prefix is
followed by a longer proper one on which the check passes (`shrinkScenario_shortest_iff`).
-/

set_option autoImplicit false
set_option relaxedAutoImplicit false

namespace Propsim.Simulator

open Foundation Interchange Propsim.Core

variable {N : Node}

/-! ### Failing streams -/

/-- A plan has one outcome at a seed, whatever the fuel. -/
theorem runDeterministic_unique {data : PlanData} {nodeDef : Option NodeDef}
    {workload : Option Strategy} {codec : Option (ClientCodec N)} {seed : Seed} {fuel fuel' : ℕ}
    {outcome outcome' : Except RunFailure (TypedRun N)}
    (h : runDeterministic fuel data nodeDef workload codec seed = .ok outcome)
    (h' : runDeterministic fuel' data nodeDef workload codec seed = .ok outcome') :
    outcome = outcome' := by
  by_cases hnode : nodeDef = some .spawnEach
  · subst hnode
    exact Except.ok.inj (h.symm.trans h')
  · have hresult {fuel : ℕ} {outcome : Except RunFailure (TypedRun N)}
        (h : runDeterministic fuel data nodeDef workload codec seed = .ok outcome) :
        ∃ e : Execution N data workload codec seed, outcome = .ok e.result := by
      have hok : ∃ run, outcome = .ok run := by
        rw [runDeterministic_eq hnode] at h
        simp only [except_bind_eq_ok, except_pure_eq_ok] at h
        obtain ⟨core, -, started, -, final, -, rfl⟩ := h
        exact ⟨_, rfl⟩
      obtain ⟨run, rfl⟩ := hok
      obtain ⟨e, rfl⟩ := exists_execution h
      exact ⟨e, rfl⟩
    obtain ⟨e, rfl⟩ := hresult h
    obtain ⟨e', rfl⟩ := hresult h'
    rw [Subsingleton.elim e e']

/-- The check of a name fails on a stream. -/
def FailsOn (data : PlanData) (nodeDef : Option NodeDef) (codec : Option (ClientCodec N))
    (properties : List (Property N.State)) (backend : Backend) (seed : Seed) (failedName : String)
    (ops : List FrozenOp) : Prop :=
  ∃ fuel, stillFails fuel data nodeDef codec properties backend seed failedName ops = .ok true

/-- A candidate has one answer, whatever the fuel. -/
theorem stillFails_unique {data : PlanData} {nodeDef : Option NodeDef}
    {codec : Option (ClientCodec N)} {properties : List (Property N.State)} {backend : Backend}
    {seed : Seed} {failedName : String} {ops : List FrozenOp} {fuel fuel' : ℕ} {fails fails' : Bool}
    (h : stillFails fuel data nodeDef codec properties backend seed failedName ops = .ok fails)
    (h' : stillFails fuel' data nodeDef codec properties backend seed failedName ops = .ok fails') :
    fails = fails' := by
  rw [stillFails, except_bind_eq_ok] at h h'
  obtain ⟨outcome, hrun, h⟩ := h
  obtain ⟨outcome', hrun', h'⟩ := h'
  obtain rfl := runDeterministic_unique hrun hrun'
  exact Except.ok.inj (h.symm.trans h')

/-! ### The loop -/

section Loop

variable {fails : List FrozenOp → Except Halt Bool} {full ops : List FrozenOp}

/-- The loop ends at a prefix below which it has seen only failing ones, by induction on the length:
the next shorter prefix passes, or there is none. -/
theorem exists_of_shrinkLoop {len : ℕ}
    (h : shrinkLoop fails full len (full.take len) = .ok ops) :
    ∃ m ≤ len, ops = full.take m ∧ (∀ k, m ≤ k → k < len → fails (full.take k) = .ok true) ∧
      ∀ k, m = k + 1 → fails (full.take k) = .ok false := by
  induction len with
  | zero =>
    obtain rfl := Except.ok.inj h
    exact ⟨0, le_rfl, rfl, fun k _ hk ↦ absurd hk (Nat.not_lt_zero k), fun k hk ↦ by cases hk⟩
  | succ len ih =>
    rw [shrinkLoop, except_bind_eq_ok] at h
    obtain ⟨failed, hfailed, h⟩ := h
    cases failed with
    | false =>
      obtain rfl := except_pure_eq_ok.mp h
      refine ⟨len + 1, le_rfl, rfl, fun k hle hlt ↦ absurd hlt (not_lt.mpr hle), fun k hk ↦ ?_⟩
      obtain rfl := Nat.succ.inj hk
      exact hfailed
    | true =>
      obtain ⟨m, hm, hops, hfailing, hstop⟩ := ih h
      refine ⟨m, Nat.le_succ_of_le hm, hops, fun k hle hlt ↦ ?_, hstop⟩
      rcases Nat.lt_succ_iff_lt_or_eq.mp hlt with hlt | rfl
      · exact hfailing k hle hlt
      · exact hfailed

end Loop

/-- A shrunk scenario holds a prefix of the operations of the run: every proper prefix from it on
fails the check, and the next shorter one does not. -/
theorem exists_of_shrinkScenario {data : PlanData} {nodeDef : Option NodeDef}
    {workload : Option Strategy} {codec : Option (ClientCodec N)}
    {properties : List (Property N.State)} {backend : Backend} {seed : Seed} {failedName : String}
    {fuel : ℕ} {run : TypedRun N} {scenario : Scenario}
    (hrun : runDeterministic fuel data nodeDef workload codec seed = .ok (.ok run))
    (hshrink : shrinkScenario fuel data nodeDef workload codec properties backend seed failedName =
      .ok scenario) :
    ∃ m ≤ (collectOps run).length,
      scenario = (Scenario.new ((collectOps run).take m) (data.faults.getD .swarm)).fromSeed seed ∧
      (∀ k, m ≤ k → k < (collectOps run).length → stillFails fuel data nodeDef codec properties
        backend seed failedName ((collectOps run).take k) = .ok true) ∧
      ∀ k, m = k + 1 → stillFails fuel data nodeDef codec properties backend seed failedName
        ((collectOps run).take k) = .ok false := by
  rw [shrinkScenario, except_bind_eq_ok] at hshrink
  obtain ⟨outcome, houtcome, hshrink⟩ := hshrink
  obtain rfl := Except.ok.inj (hrun.symm.trans houtcome)
  rw [except_bind_eq_ok] at hshrink
  obtain ⟨best, hloop, hshrink⟩ := hshrink
  have hwhole : shrinkLoop
      (stillFails fuel data nodeDef codec properties backend seed failedName) (collectOps run)
      (collectOps run).length ((collectOps run).take (collectOps run).length) = .ok best := by
    rw [List.take_length]
    exact hloop
  obtain ⟨m, hm, rfl, hfailing, hstop⟩ := exists_of_shrinkLoop hwhole
  exact ⟨m, hm, (except_pure_eq_ok.mp hshrink).symm, hfailing, hstop⟩

/-! ### The shortest failing prefix -/

/-- A stream is the shortest failing prefix of another, or all of it when no proper prefix fails. -/
def IsShortestFailing (Fails : List FrozenOp → Prop) (full ops : List FrozenOp) : Prop :=
  ∃ m ≤ full.length, ops = full.take m ∧ (m < full.length → Fails (full.take m)) ∧
    ∀ k < m, ¬Fails (full.take k)

/-- A shrunk scenario has the shortest failing prefix of the operations of the run exactly when
every proper prefix that is longer than a failing one fails too. -/
theorem shrinkScenario_shortest_iff {data : PlanData} {nodeDef : Option NodeDef}
    {workload : Option Strategy} {codec : Option (ClientCodec N)}
    {properties : List (Property N.State)} {backend : Backend} {seed : Seed} {failedName : String}
    {fuel : ℕ} {run : TypedRun N} {scenario : Scenario}
    (hrun : runDeterministic fuel data nodeDef workload codec seed = .ok (.ok run))
    (hshrink : shrinkScenario fuel data nodeDef workload codec properties backend seed failedName =
      .ok scenario) :
    let full := collectOps run
    let Fails := FailsOn data nodeDef codec properties backend seed failedName
    IsShortestFailing Fails full scenario.ops ↔
      ∀ m n, m < n → n < full.length → Fails (full.take m) → Fails (full.take n) := by
  intro full Fails
  obtain ⟨m, hm, rfl, hfailing, hstop⟩ := exists_of_shrinkScenario hrun hshrink
  change m ≤ full.length at hm
  have hfails (k : ℕ) (hle : m ≤ k) (hlt : k < full.length) : Fails (full.take k) :=
    ⟨fuel, hfailing k hle hlt⟩
  have hpasses (k : ℕ) (hk : m = k + 1) : ¬Fails (full.take k) := fun ⟨_, h⟩ ↦
    Bool.noConfusion (stillFails_unique h (hstop k hk))
  change IsShortestFailing Fails full (full.take m) ↔ _
  constructor
  · rintro ⟨m', hm', hsame, -, hshortest⟩ i j hij hj hi
    obtain rfl : m = m' := by
      have hlength := congrArg List.length hsame
      simpa [hm, hm'] using hlength
    exact hfails j ((not_lt.mp fun hlt ↦ hshortest i hlt hi).trans hij.le) hj
  · intro hupward
    refine ⟨m, hm, rfl, hfails m le_rfl, fun k hk hfailed ↦ ?_⟩
    obtain ⟨last, rfl⟩ := Nat.exists_eq_succ_of_ne_zero (Nat.ne_zero_of_lt hk)
    rcases Nat.lt_succ_iff_lt_or_eq.mp hk with hlt | rfl
    · exact hpasses last rfl (hupward k last hlt (Nat.lt_of_succ_le hm) hfailed)
    · exact hpasses k rfl hfailed

/-! ### A check that passes on two operations only -/

/-- The deterministic executor without oracles. -/
def bareBackend : Backend := ⟨⟨.deterministic, fun _ seed ↦ ⟨.default, none, .new, seed⟩⟩, []⟩

/-- The history of two operations is reached. -/
def pairReached : Property ℕ :=
  ⟨"pair-reached", .sometimes, fun world ↦ world.history.entries.length = 4, none⟩

/-- One counting node that is sent three operations. -/
def threeIncrements : PlanData := counterPlan 1 [] (List.replicate 3 (.new ⟨0⟩ .nil))

/-- The shrunk scenario of three operations. -/
theorem exists_shrunk_threeIncrements :
    ∃ scenario, shrinkScenario 16 threeIncrements none none (some counterCodec) [pairReached]
      bareBackend ⟨0⟩ pairReached.name = .ok scenario ∧ scenario.ops.length = 3 := by
  have hlength : (shrinkScenario 16 threeIncrements none none (some counterCodec) [pairReached]
      bareBackend ⟨0⟩ pairReached.name).toOption.map (·.ops.length) = some 3 := by
    decide +kernel
  obtain ⟨scenario, hscenario, hops⟩ := Option.map_eq_some_iff.mp hlength
  exact ⟨scenario, eq_ok_of_toOption hscenario, hops⟩

/-- Three operations shrink to the shortest failing prefix exactly when the longer prefixes of a
failing one fail. -/
theorem threeIncrements_shortest_iff :
    ∃ run scenario,
      runDeterministic 16 threeIncrements none none (some counterCodec) ⟨0⟩ = .ok (.ok run) ∧
      shrinkScenario 16 threeIncrements none none (some counterCodec) [pairReached] bareBackend ⟨0⟩
        pairReached.name = .ok scenario ∧
      (IsShortestFailing
          (FailsOn threeIncrements none (some counterCodec) [pairReached] bareBackend ⟨0⟩
            pairReached.name) (collectOps run) scenario.ops ↔
        ∀ m n, m < n → n < (collectOps run).length →
          FailsOn threeIncrements none (some counterCodec) [pairReached] bareBackend ⟨0⟩
            pairReached.name ((collectOps run).take m) →
          FailsOn threeIncrements none (some counterCodec) [pairReached] bareBackend ⟨0⟩
            pairReached.name ((collectOps run).take n)) := by
  obtain ⟨run, hrun⟩ := exists_run_of_isSome (N := counter)
    (x := runDeterministic 16 threeIncrements none none (some counterCodec) ⟨0⟩) (by decide +kernel)
  obtain ⟨scenario, hscenario, -⟩ := exists_shrunk_threeIncrements
  exact ⟨run, scenario, hrun, hscenario, shrinkScenario_shortest_iff hrun hscenario⟩

/-- Three operations fail the check and so does none of them, but two pass it: the shrunk scenario
keeps all three. -/
theorem threeIncrements_not_shortest :
    ∃ run scenario,
      runDeterministic 16 threeIncrements none none (some counterCodec) ⟨0⟩ = .ok (.ok run) ∧
      (rejects [pairReached] bareBackend run ⟨0⟩ pairReached.name).toOption = some true ∧
      shrinkScenario 16 threeIncrements none none (some counterCodec) [pairReached] bareBackend ⟨0⟩
        pairReached.name = .ok scenario ∧
      ¬IsShortestFailing
        (FailsOn threeIncrements none (some counterCodec) [pairReached] bareBackend ⟨0⟩
          pairReached.name) (collectOps run) scenario.ops := by
  obtain ⟨run, hrun⟩ := exists_run_of_isSome (N := counter)
    (x := runDeterministic 16 threeIncrements none none (some counterCodec) ⟨0⟩) (by decide +kernel)
  obtain ⟨scenario, hscenario, hops⟩ := exists_shrunk_threeIncrements
  have hrejects : ((runDeterministic 16 threeIncrements none none (some counterCodec)
      ⟨0⟩).toOption.bind Except.toOption).map (fun run ↦
        (rejects (N := counter) [pairReached] bareBackend run ⟨0⟩ pairReached.name).toOption) =
      some (some true) := by
    decide +kernel
  rw [hrun] at hrejects
  have hempty : (stillFails (N := counter) 16 threeIncrements none (some counterCodec) [pairReached]
      bareBackend ⟨0⟩ pairReached.name []).toOption = some true := by
    decide +kernel
  refine ⟨run, scenario, hrun, Option.some.inj hrejects, hscenario, ?_⟩
  rintro ⟨m, hm, hsame, -, hshortest⟩
  have hlength := congrArg List.length hsame
  rw [hops, List.length_take, min_eq_left hm] at hlength
  exact hshortest 0 (by omega) ⟨16, eq_ok_of_toOption hempty⟩

end Propsim.Simulator
