import Propsim.Simulator.Drive

/-!
# What the result of a drive says about its verdicts

A drive with typed nodes reports only valid verdicts, one for each check and seed, and a violation
that it returns names a check that really rejects the run at the returned seed
(`driveSeed_eq_ok`, `driveFrom_eq_ok`). The erased drive copies the verdicts of the oracles into
its report without looking at them, so a black-box backend returns normally although an oracle
rejected. `trustworthy_iff` says for which plans and backends the result can be trusted.
-/

set_option autoImplicit false
set_option relaxedAutoImplicit false

namespace Propsim.Simulator

open Foundation Interchange Propsim.Core

variable {N : Node}

/-! ### Property verdicts -/

/-- The verdicts of the properties are those of evaluating each of them. -/
theorem mem_evaluateProperties {S : Type} {properties : List (Property S)} {trace : WorldTrace S}
    {events : List RunEvent} {verdicts : List NamedVerdict}
    (h : evaluateProperties properties trace events = .ok verdicts) (nv : NamedVerdict) :
    nv ∈ verdicts ↔
      ∃ prop ∈ properties, prop.name = nv.name ∧
        evaluateOne prop trace events = .ok nv.verdict := by
  induction properties generalizing verdicts with
  | nil =>
    rw [evaluateProperties, List.mapM_nil, except_pure_eq_ok] at h
    simp [← h]
  | cons prop rest ih =>
    rw [evaluateProperties, List.mapM_cons, except_bind_eq_ok] at h
    obtain ⟨head, hhead, h⟩ := h
    rw [except_bind_eq_ok] at hhead h
    obtain ⟨verdict, hverdict, hhead⟩ := hhead
    obtain ⟨tail, htail, h⟩ := h
    rw [except_pure_eq_ok] at hhead h
    subst hhead h
    rw [List.mem_cons, ih htail]
    constructor
    · rintro (rfl | ⟨prop', hin, hprop'⟩)
      · exact ⟨prop, by simp, rfl, hverdict⟩
      · exact ⟨prop', List.mem_cons_of_mem _ hin, hprop'⟩
    · rintro ⟨prop', hin, hname, heval⟩
      rcases List.mem_cons.mp hin with rfl | hin
      · rw [hverdict] at heval
        obtain ⟨name, verdict'⟩ := nv
        simp only at hname heval
        exact Or.inl (by rw [hname, Except.ok.inj heval])
      · exact Or.inr ⟨prop', hin, hname, heval⟩

/-! ### One seed -/

/-- Some check of a name rejects a run. -/
def RejectedBy (plan : TestPlan N) (backend : Backend) (run : TypedRun N) (seed : Seed)
    (name : String) : Prop :=
  (∃ prop ∈ plan.properties, prop.name = name ∧ ∃ verdict,
      evaluateOne prop run.worldTrace run.events = .ok verdict ∧ verdict.isValid = false) ∨
    ∃ o ∈ backend.oracles, o.name = name ∧ (o.check (run.output seed)).isValid = false

/-- Some check of a name rejects the run of a plan at a seed. -/
def Rejected (fuel : ℕ) (plan : TestPlan N) (backend : Backend) (seed : Seed) (name : String) :
    Prop :=
  ∃ run, runDeterministic fuel plan.data plan.nodeDef plan.workload plan.client seed =
    .ok (.ok run) ∧ RejectedBy plan backend run seed name

/-- The verdicts collected for a run hold an invalid one of a name exactly when some check of that
name rejects the run. -/
theorem rejectedBy_iff {plan : TestPlan N} {backend : Backend} {run : TypedRun N} {seed : Seed}
    {propVerdicts : List NamedVerdict}
    (h : evaluateProperties plan.properties run.worldTrace run.events = .ok propVerdicts)
    (name : String) :
    RejectedBy plan backend run seed name ↔
      ∃ nv ∈ propVerdicts ++ oracleVerdicts backend (run.output seed),
        nv.name = name ∧ nv.verdict.isValid = false := by
  simp only [List.mem_append, or_and_right, exists_or, RejectedBy]
  refine or_congr ?_ ?_
  · constructor
    · rintro ⟨prop, hin, hname, verdict, heval, hinvalid⟩
      exact ⟨⟨name, verdict⟩, (mem_evaluateProperties h _).mpr ⟨prop, hin, hname, heval⟩, rfl,
        hinvalid⟩
    · rintro ⟨nv, hin, hname, hinvalid⟩
      obtain ⟨prop, hprop, hsame, heval⟩ := (mem_evaluateProperties h nv).mp hin
      exact ⟨prop, hprop, hsame.trans hname, nv.verdict, heval, hinvalid⟩
  · simp only [oracleVerdicts, List.mem_map, exists_exists_and_eq_and]

/-- A run that ends without a result had no executor. -/
theorem runDeterministic_eq_error {fuel : ℕ} {data : PlanData} {nodeDef : Option NodeDef}
    {workload : Option Strategy} {codec : Option (ClientCodec N)} {seed : Seed}
    {failure : RunFailure}
    (h : runDeterministic fuel data nodeDef workload codec seed = .ok (.error failure)) :
    failure = .noExecutor := by
  unfold runDeterministic at h
  split at h
  · simpa [eq_comm] using h
  all_goals
    simp only [except_bind_eq_ok, except_pure_eq_ok] at h
    obtain ⟨_, -, _, -, _, -, hcontra⟩ := h
    cases hcontra

/-- What driving one seed says: a list of verdicts is returned only when no check rejects the run,
and a violation only for a check that does. -/
theorem driveSeed_eq_ok {fuel : ℕ} {plan : TestPlan N} {backend : Backend} {seed : Seed}
    {result : Except RunFailure (List NamedVerdict)}
    (h : driveSeed fuel plan backend seed = .ok result) :
    (∀ verdicts, result = .ok verdicts →
      (∀ nv ∈ verdicts, nv.verdict.isValid = true) ∧
        ∀ name, ¬ Rejected fuel plan backend seed name) ∧
    ∀ name origin scenario, result = .error (.violation name origin scenario) →
      origin = seed ∧ Rejected fuel plan backend seed name := by
  rw [driveSeed, except_bind_eq_ok] at h
  obtain ⟨outcome, hrun, h⟩ := h
  cases outcome with
  | error failure =>
    simp only [except_pure_eq_ok] at h
    subst h
    obtain rfl := runDeterministic_eq_error hrun
    simp
  | ok run =>
    simp only [except_bind_eq_ok] at h
    obtain ⟨propVerdicts, hprops, h⟩ := h
    have hrejected (name : String) : Rejected fuel plan backend seed name ↔
        RejectedBy plan backend run seed name := by
      constructor
      · rintro ⟨run', hrun', hrejects⟩
        obtain rfl : run = run' := by simpa [hrun] using hrun'
        exact hrejects
      · exact fun hrejects ↦ ⟨run, hrun, hrejects⟩
    split at h
    · rename_i hnone
      rw [except_pure_eq_ok] at h
      subst h
      have hvalid := List.find?_eq_none.mp hnone
      simp only [Bool.not_eq_true', Bool.not_eq_false] at hvalid
      refine ⟨fun verdicts hverdicts ↦ ?_, by simp⟩
      obtain rfl := Except.ok.inj hverdicts
      refine ⟨hvalid, fun name hname ↦ ?_⟩
      obtain ⟨nv, hin, -, hinvalid⟩ :=
        (rejectedBy_iff hprops name).mp ((hrejected name).mp hname)
      simp [hvalid nv hin] at hinvalid
    · rename_i nv hsome
      rw [except_bind_eq_ok] at h
      obtain ⟨scenario, -, h⟩ := h
      rw [except_pure_eq_ok] at h
      subst h
      refine ⟨by simp, fun name origin scenario' hviolation ↦ ?_⟩
      simp only [Except.error.injEq, RunFailure.violation.injEq] at hviolation
      obtain ⟨rfl, rfl, -⟩ := hviolation
      refine ⟨rfl, (hrejected _).mpr ((rejectedBy_iff hprops _).mpr
        ⟨nv, List.mem_of_find?_eq_some hsome, rfl, ?_⟩)⟩
      simpa using List.find?_some hsome

/-! ### All seeds -/

/-- What driving the seeds from an index on says, by induction on how many remain. -/
theorem driveFrom_eq_ok {fuel : ℕ} {propsimSeed : Option String} {plan : TestPlan N}
    {backend : Backend} {s remaining : ℕ} {verdicts : List NamedVerdict}
    {result : Except RunFailure Report} (hverdicts : ∀ nv ∈ verdicts, nv.verdict.isValid = true)
    (h : driveFrom fuel propsimSeed plan backend s remaining verdicts = .ok result) :
    (∀ report, result = .ok report →
      (∀ nv ∈ report.verdicts, nv.verdict.isValid = true) ∧
        ∀ t, s ≤ t → t < s + remaining →
          ∀ name, ¬ Rejected fuel plan backend (effectiveSeed propsimSeed t) name) ∧
    ∀ name seed scenario, result = .error (.violation name seed scenario) →
      Rejected fuel plan backend seed name := by
  induction remaining generalizing s verdicts with
  | zero =>
    obtain rfl := Except.ok.inj h
    refine ⟨fun report hreport ↦ ?_, by simp⟩
    obtain rfl := Except.ok.inj hreport
    exact ⟨hverdicts, fun t hle hlt ↦ by omega⟩
  | succ remaining ih =>
    rw [driveFrom, except_bind_eq_ok] at h
    obtain ⟨outcome, hseed, h⟩ := h
    obtain ⟨hok, hviolation⟩ := driveSeed_eq_ok hseed
    cases outcome with
    | error failure =>
      obtain rfl := except_pure_eq_ok.mp h
      refine ⟨by simp, fun name seed scenario hfailure ↦ ?_⟩
      obtain ⟨rfl, hrejected⟩ := hviolation name seed scenario (by rw [Except.error.inj hfailure])
      exact hrejected
    | ok more =>
      obtain ⟨hmore, haccepted⟩ := hok more rfl
      have hall : ∀ nv ∈ verdicts ++ more, nv.verdict.isValid = true := by
        intro nv hnv
        rcases List.mem_append.mp hnv with hin | hin
        · exact hverdicts nv hin
        · exact hmore nv hin
      obtain ⟨hreport, hrest⟩ := ih hall h
      refine ⟨fun report heq ↦ ?_, hrest⟩
      obtain ⟨hvalid, hlater⟩ := hreport report heq
      refine ⟨hvalid, fun t hle hlt ↦ ?_⟩
      rcases Nat.eq_or_lt_of_le hle with rfl | hlt'
      · exact haccepted
      · exact hlater t hlt' (by omega)

/-- Some check rejects an execution that a backend makes of a plan. -/
def RejectsExecution (fuel : ℕ) (propsimSeed : Option String) (plan : TestPlan N)
    (backend : Backend) : Prop :=
  if backend.executor.capabilities.worldSnapshots then
    ∃ s < (max plan.data.seeds 1).toNat, ∃ name,
      Rejected fuel plan backend (effectiveSeed propsimSeed s) name
  else
    ∃ o ∈ backend.oracles, (o.check (backend.executor.run plan.data
      (effectiveSeed propsimSeed 0))).isValid = false

/-- The result of driving a plan on a backend can be trusted: a report holds only valid verdicts, a
violation names a check that rejects the run at its seed, and `run` does not return normally when a
check rejects an execution. -/
structure Trustworthy (propsimSeed : Option String) (plan : TestPlan N) (backend : Backend) :
    Prop where
  report : ∀ fuel report, tryRun fuel propsimSeed plan backend = .ok (.ok report) →
    ∀ nv ∈ report.verdicts, nv.verdict.isValid = true
  violation : ∀ fuel name seed scenario,
    tryRun fuel propsimSeed plan backend = .ok (.error (.violation name seed scenario)) →
      Rejected fuel plan backend seed name
  returned : ∀ fuel report, run fuel propsimSeed plan backend = .ok (.returned report) →
    ¬ RejectsExecution fuel propsimSeed plan backend

/-- `run` returns exactly the reports of `try_run`. -/
theorem run_eq_returned {fuel : ℕ} {propsimSeed : Option String} {plan : TestPlan N}
    {backend : Backend} {report : Report} :
    run fuel propsimSeed plan backend = .ok (.returned report) ↔
      tryRun fuel propsimSeed plan backend = .ok (.ok report) := by
  rw [run, except_bind_eq_ok]
  constructor
  · rintro ⟨result, hresult, hend⟩
    cases result with
    | error failure => simp [except_pure_eq_ok] at hend
    | ok report' =>
      rw [except_pure_eq_ok] at hend
      obtain rfl := RunEnd.returned.inj hend
      exact hresult
  · exact fun h ↦ ⟨_, h, rfl⟩

/-- On an executor with world snapshots the result can be trusted. -/
theorem trustworthy_of_worldSnapshots {propsimSeed : Option String} {plan : TestPlan N}
    {backend : Backend} (hworld : backend.executor.capabilities.worldSnapshots = true) :
    Trustworthy propsimSeed plan backend := by
  have htry (fuel : ℕ) : tryRun fuel propsimSeed plan backend =
      drive fuel propsimSeed plan backend := by
    simp [tryRun, Backend.validate, validate, hworld]
  refine ⟨fun fuel report h ↦ ?_, fun fuel name seed scenario h ↦ ?_, fun fuel report h ↦ ?_⟩
  · rw [htry] at h
    exact ((driveFrom_eq_ok (by simp) h).1 report rfl).1
  · rw [htry] at h
    exact (driveFrom_eq_ok (by simp) h).2 name seed scenario rfl
  · rw [run_eq_returned, htry] at h
    rw [RejectsExecution, if_pos hworld]
    rintro ⟨s, hs, name, hrejected⟩
    exact ((driveFrom_eq_ok (by simp) h).1 report rfl).2 s (Nat.zero_le s) (by omega) name
      hrejected

/-- A black-box backend with a property or a white-box oracle is refused before any run. -/
theorem tryRun_eq_negotiation (propsimSeed : Option String) {plan : TestPlan N}
    {backend : Backend} (hworld : backend.executor.capabilities.worldSnapshots = false)
    (hwhite : (∃ o ∈ backend.oracles, o.needs = .world) ∨ plan.properties ≠ []) :
    ∃ error, ∀ fuel, tryRun fuel propsimSeed plan backend = .ok (.error (.negotiation error)) := by
  by_cases horacle : ∃ o ∈ backend.oracles, o.needs = .world
  · obtain ⟨o, hin, hneeds⟩ := horacle
    have hnonempty : ((backend.oracles.filter fun o ↦ o.needs = .world).map (·.name)).isEmpty =
        false := by
      rw [List.isEmpty_eq_false_iff]
      exact List.ne_nil_of_mem
        (List.mem_map_of_mem (List.mem_filter.mpr ⟨hin, by simpa using hneeds⟩))
    exact ⟨_, fun fuel ↦ by simp only [tryRun, Backend.validate, validate, hworld, hnonempty]; rfl⟩
  · have hproperties : plan.properties.isEmpty = false := by
      rw [List.isEmpty_eq_false_iff]
      exact hwhite.resolve_left horacle
    refine ⟨.whiteBoxOraclesOnBlackBoxExecutor (plan.properties.map (·.name)), fun fuel ↦ ?_⟩
    have hempty : (backend.oracles.filter fun o ↦ o.needs = .world) = [] := by
      refine List.filter_eq_nil_iff.mpr fun o hin ↦ ?_
      simpa using fun hneeds ↦ horacle ⟨o, hin, hneeds⟩
    simp [tryRun, Backend.validate, validate, hworld, hempty, hproperties]

/-- A black-box backend without properties and white-box oracles returns the verdicts of its
oracles, whatever they are. -/
theorem tryRun_eq_erased (propsimSeed : Option String) {plan : TestPlan N} {backend : Backend}
    (hworld : backend.executor.capabilities.worldSnapshots = false)
    (hblack : ¬ ((∃ o ∈ backend.oracles, o.needs = .world) ∨ plan.properties ≠ [])) (fuel : ℕ) :
    tryRun fuel propsimSeed plan backend =
      .ok (.ok (driveErased propsimSeed plan.data backend)) := by
  have hempty : (backend.oracles.filter fun o ↦ o.needs = .world) = [] := by
    refine List.filter_eq_nil_iff.mpr fun o hin ↦ ?_
    simpa using fun hneeds ↦ hblack (Or.inl ⟨o, hin, hneeds⟩)
  have hproperties : plan.properties = [] := by
    by_contra hne
    exact hblack (Or.inr hne)
  simp [tryRun, Backend.validate, validate, hworld, hempty, hproperties]

/-- The result of driving a plan on a backend can be trusted exactly when the executor produces
world snapshots, or negotiation refuses the backend, or no oracle rejects the output of the
black-box run. -/
theorem trustworthy_iff (propsimSeed : Option String) (plan : TestPlan N) (backend : Backend) :
    Trustworthy propsimSeed plan backend ↔
      backend.executor.capabilities.worldSnapshots = true ∨
      (∃ o ∈ backend.oracles, o.needs = .world) ∨ plan.properties ≠ [] ∨
      ∀ o ∈ backend.oracles, (o.check (backend.executor.run plan.data
        (effectiveSeed propsimSeed 0))).isValid = true := by
  cases hworld : backend.executor.capabilities.worldSnapshots with
  | true => exact iff_of_true (trustworthy_of_worldSnapshots hworld) (Or.inl rfl)
  | false =>
    by_cases hwhite : (∃ o ∈ backend.oracles, o.needs = .world) ∨ plan.properties ≠ []
    · obtain ⟨error, htry⟩ := tryRun_eq_negotiation propsimSeed hworld hwhite
      refine iff_of_true ⟨fun fuel report h ↦ ?_, fun fuel name seed scenario h ↦ ?_,
        fun fuel report h ↦ ?_⟩ (Or.inr (hwhite.imp id Or.inl))
      · simp [htry fuel] at h
      · simp [htry fuel] at h
      · rw [run_eq_returned, htry fuel] at h
        simp at h
    · have htry := tryRun_eq_erased propsimSeed hworld hwhite
      have haccepted : Trustworthy propsimSeed plan backend ↔ ∀ o ∈ backend.oracles,
          (o.check (backend.executor.run plan.data
            (effectiveSeed propsimSeed 0))).isValid = true := by
        constructor
        · intro htrust o ho
          exact htrust.report 0 _ (htry 0) ⟨o.name, _⟩ (List.mem_map_of_mem ho)
        · intro hvalid
          refine ⟨fun fuel report h ↦ ?_, fun fuel name seed scenario h ↦ ?_,
            fun fuel report h ↦ ?_⟩
          · rw [htry fuel, Except.ok.injEq, Except.ok.injEq] at h
            subst h
            simpa [driveErased, oracleVerdicts] using hvalid
          · simp [htry fuel] at h
          · simpa [RejectsExecution, hworld] using hvalid
      rw [haccepted]
      constructor
      · exact fun hvalid ↦ Or.inr (Or.inr (Or.inr hvalid))
      · rintro (hcontra | horacle | hproperty | hvalid)
        · exact absurd hcontra (by simp)
        · exact absurd (Or.inl horacle) hwhite
        · exact absurd (Or.inr hproperty) hwhite
        · exact hvalid

/-- A black-box executor that records nothing, with an oracle that rejects every output. -/
def rejectingBackend : Backend where
  executor := ⟨.realCluster, fun _ seed ↦ ⟨.default, none, .new, seed⟩⟩
  oracles := [⟨"reject", .history, fun _ ↦ .invalid [.new "rejected"]⟩]

/-- The plan of counting nodes without properties. -/
def counterTest (data : PlanData) : TestPlan counter := ⟨data, none, none, some counterCodec, []⟩

/-- The erased drive returns a report with the rejecting verdict in it. -/
theorem rejectingBackend_not_trustworthy :
    ¬ Trustworthy none (counterTest counterScript) rejectingBackend := by
  intro htrust
  have hblack : ¬ ((∃ o ∈ rejectingBackend.oracles, o.needs = .world) ∨
      (counterTest counterScript).properties ≠ []) := by
    simp [rejectingBackend, counterTest]
  have hreport := tryRun_eq_erased none
    (rfl : rejectingBackend.executor.capabilities.worldSnapshots = false) hblack 0
  have hvalid := htrust.report 0 _ hreport ⟨"reject", .invalid [.new "rejected"]⟩
    List.mem_cons_self
  simp at hvalid

end Propsim.Simulator
