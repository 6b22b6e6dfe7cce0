import Propsim.Simulator.Export

/-!
# The determinism guard

`guard.rs`: a plan is run twice at one seed, and the recorded histories are compared entry by entry.
The comparison is the derived one, under which a NaN differs from itself. So on two builds of one
plan the guard passes, except when the stream or the codec of the plan puts a NaN into a recorded
value; it then points at the first entry that holds one, and shows it twice
(`assertDeterministic_same`).
-/

set_option autoImplicit false
set_option relaxedAutoImplicit false

namespace Propsim.Simulator

open Foundation Interchange Propsim.Core

variable {N : Node}

/-- How `assert_deterministic` ends: it passes, or it panics because the histories diverge at an
entry or have different lengths. -/
inductive GuardEnd
  | passed
  | diverged (seed : Seed) (pos : ℕ) (a b : Option OpEntry)
  | lengthsDiffer (seed : Seed) (a b : ℕ)
  deriving DecidableEq

/-- The history that a plan records at a seed, empty when the run fails. -/
def recordHistory (fuel : ℕ) (plan : TestPlan N) (seed : Seed) : Except Halt History := do
  match ← runDeterministic fuel plan.data plan.nodeDef plan.workload plan.client seed with
  | .ok run => pure run.history
  | .error _ => pure .default

/-- The first position at which both histories have an entry and the entries differ. -/
def firstDivergence (a b : History) : Option ℕ :=
  (a.entries.zip b.entries).findIdx? fun entries ↦ !entries.1.eq entries.2

/-- Asserts that two plans that a builder makes record the same history at a seed. -/
def assertDeterministic (fuel : ℕ) (first second : TestPlan N) (seed : Seed) :
    Except Halt GuardEnd := do
  let a ← recordHistory fuel first seed
  let b ← recordHistory fuel second seed
  match firstDivergence a b with
  | some pos => pure (.diverged seed pos a.entries[pos]? b.entries[pos]?)
  | none =>
    if a.entries.length = b.entries.length then pure .passed
    else pure (.lengthsDiffer seed a.entries.length b.entries.length)

/-! ### One plan, built twice -/

theorem firstDivergence_self (history : History) :
    firstDivergence history history = history.entries.findIdx? fun e ↦ !e.eq e := by
  rw [firstDivergence, List.zip, List.zipWith_self, List.findIdx?_map]
  rfl

/-- A history diverges from itself at the first entry that holds a NaN. -/
theorem firstDivergence_self_eq_some_iff {history : History} {pos : ℕ} :
    firstDivergence history history = some pos ↔
      ∃ e, history.entries[pos]? = some e ∧ ¬e.value.NaNFree ∧
        ∀ i < pos, ∀ e', history.entries[i]? = some e' → e'.value.NaNFree := by
  rw [firstDivergence_self, List.findIdx?_eq_some_iff_getElem]
  simp only [Bool.not_eq_true', ← OpEntry.eq_self_iff, Bool.not_eq_true, Bool.not_eq_false]
  constructor
  · rintro ⟨hpos, hdiffers, hbefore⟩
    refine ⟨_, List.getElem?_eq_getElem hpos, hdiffers, fun i hi e' he' ↦ ?_⟩
    obtain ⟨hlt, rfl⟩ := List.getElem?_eq_some_iff.mp he'
    exact hbefore i hi
  · rintro ⟨e, he, hdiffers, hbefore⟩
    obtain ⟨hpos, rfl⟩ := List.getElem?_eq_some_iff.mp he
    exact ⟨hpos, hdiffers, fun i hi ↦
      hbefore i hi _ (List.getElem?_eq_getElem (hi.trans hpos))⟩

theorem firstDivergence_self_eq_none_iff {history : History} :
    firstDivergence history history = none ↔ ∀ e ∈ history.entries, e.value.NaNFree := by
  rw [firstDivergence_self, List.findIdx?_eq_none_iff]
  simp only [Bool.not_eq_false', OpEntry.eq_self_iff]

/-- What is recorded at a seed stems from the stream and the codec of the plan. -/
theorem stems_of_recordHistory {fuel : ℕ} {plan : TestPlan N} {seed : Seed} {history : History}
    (h : recordHistory fuel plan seed = .ok history) :
    ∀ e ∈ history.entries, Stems plan.client (resolveOps plan.data plan.workload seed) e := by
  rw [recordHistory, except_bind_eq_ok] at h
  obtain ⟨outcome, hrun, h⟩ := h
  cases outcome with
  | error failure =>
    obtain rfl := except_pure_eq_ok.mp h
    exact List.forall_mem_nil _
  | ok run =>
    obtain rfl := except_pure_eq_ok.mp h
    obtain ⟨e, rfl⟩ := exists_execution hrun
    exact e.sourced

/-- On two builds of one plan the guard passes when no recorded value holds a NaN. Else it points at
the first entry that does, which it shows twice, and whose value is an operation of the stream or an
answer of the codec. -/
theorem assertDeterministic_same {fuel : ℕ} {plan : TestPlan N} {seed : Seed}
    {guardEnd : GuardEnd} (h : assertDeterministic fuel plan plan seed = .ok guardEnd) :
    ∃ history, recordHistory fuel plan seed = .ok history ∧
      ((guardEnd = .passed ∧ ∀ e ∈ history.entries, e.value.NaNFree) ∨
        ∃ pos e, guardEnd = .diverged seed pos (some e) (some e) ∧
          history.entries[pos]? = some e ∧ ¬e.value.NaNFree ∧
          (∀ i < pos, ∀ e', history.entries[i]? = some e' → e'.value.NaNFree) ∧
          Stems plan.client (resolveOps plan.data plan.workload seed) e) := by
  rw [assertDeterministic, except_bind_eq_ok] at h
  obtain ⟨history, hfirst, h⟩ := h
  obtain ⟨history', hsecond, h⟩ := except_bind_eq_ok.mp h
  obtain rfl := Except.ok.inj (hfirst.symm.trans hsecond)
  refine ⟨history, hfirst, ?_⟩
  cases hdiverges : firstDivergence history history with
  | none =>
    simp only [hdiverges, if_true] at h
    exact .inl ⟨(except_pure_eq_ok.mp h).symm, firstDivergence_self_eq_none_iff.mp hdiverges⟩
  | some pos =>
    simp only [hdiverges] at h
    obtain ⟨e, he, hnan, hbefore⟩ := firstDivergence_self_eq_some_iff.mp hdiverges
    refine .inr ⟨pos, e, ?_, he, hnan, hbefore,
      stems_of_recordHistory hfirst e (List.mem_of_getElem? he)⟩
    rw [← except_pure_eq_ok.mp h, he]

/-- A plan with one operation, a float. -/
def floatPlan (x : Binary64) : TestPlan counter :=
  ⟨counterPlan 1 [] [.new ⟨0⟩ (.float x)], none, none, some counterCodec, []⟩

/-- The entry that records the operation of this plan. -/
def floatEntry (x : Binary64) : OpEntry :=
  ⟨0, .virtualNanos 1000000, .invoke, ⟨0⟩, ⟨"increment"⟩, .float x⟩

/-- A quiet NaN. -/
def notANumber : Binary64 := ⟨0x7FF8000000000000⟩

/-- How the guard ends on the plan with a NaN. -/
def nanEnd : GuardEnd :=
  .diverged ⟨0⟩ 0 (some (floatEntry notANumber)) (some (floatEntry notANumber))

/-- A plan with a NaN in its stream does not pass the guard, although its runs are the same. -/
theorem floatPlan_diverges :
    ∃ history, recordHistory 8 (floatPlan notANumber) ⟨0⟩ = .ok history ∧
      ((nanEnd = .passed ∧ ∀ e ∈ history.entries, e.value.NaNFree) ∨
        ∃ pos e, nanEnd = .diverged ⟨0⟩ pos (some e) (some e) ∧
          history.entries[pos]? = some e ∧ ¬e.value.NaNFree ∧
          (∀ i < pos, ∀ e', history.entries[i]? = some e' → e'.value.NaNFree) ∧
          Stems (some counterCodec) [.new ⟨0⟩ (.float notANumber)] e) :=
  @assertDeterministic_same counter 8 (floatPlan notANumber) ⟨0⟩ nanEnd (by decide +kernel)

/-! ### Two builds -/

/-- When the guard passes on two builds and the first one records no zero float, the second one
records the same history. -/
theorem eq_of_assertDeterministic {fuel : ℕ} {first second : TestPlan N} {seed : Seed}
    {history : History} (h : assertDeterministic fuel first second seed = .ok .passed)
    (hfirst : recordHistory fuel first seed = .ok history)
    (hzero : ∀ e ∈ history.entries, e.value.ZeroFree) :
    recordHistory fuel second seed = .ok history := by
  rw [assertDeterministic, except_bind_eq_ok] at h
  obtain ⟨a, ha, h⟩ := h
  obtain rfl := Except.ok.inj (hfirst.symm.trans ha)
  obtain ⟨b, hsecond, h⟩ := except_bind_eq_ok.mp h
  cases hdiverges : firstDivergence history b with
  | some pos =>
    simp only [hdiverges] at h
    cases except_pure_eq_ok.mp h
  | none =>
    simp only [hdiverges] at h
    split_ifs at h with hlength
    · have hentries : List.Forall₂ (· = ·) history.entries b.entries := by
        refine List.forall₂_iff_zip.mpr ⟨hlength, fun {x y} hxy ↦ ?_⟩
        refine OpEntry.eq_of_eq ?_ (hzero x (List.of_mem_zip hxy).1)
        simpa using List.findIdx?_eq_none_iff.mp hdiverges (x, y) hxy
      rw [List.forall₂_eq_eq_eq] at hentries
      rw [hsecond, ← show (⟨history.entries⟩ : History) = b from congrArg History.mk hentries]
    · cases except_pure_eq_ok.mp h

/-- The history that the plan with the float one records. -/
def oneHistory : History :=
  ⟨[floatEntry .one, ⟨1, .virtualNanos 1000000, .ok, ⟨0⟩, ⟨"increment"⟩, .nil⟩]⟩

theorem floatPlan_same : recordHistory 8 (floatPlan .one) ⟨0⟩ = .ok oneHistory := by
  have hone : Binary64.one.scaled ≠ 0 := by decide +kernel
  have hzero : ∀ e ∈ oneHistory.entries, e.value.ZeroFree := by
    simp [oneHistory, floatEntry, Value.ZeroFree, Value.parts, hone]
  exact @eq_of_assertDeterministic counter 8 (floatPlan .one) (floatPlan .one) ⟨0⟩ oneHistory
    (by decide +kernel) (by decide +kernel) hzero

/-- The guard does not tell the two zeros apart. -/
example :
    assertDeterministic 8 (floatPlan ⟨0⟩) (floatPlan ⟨0x8000000000000000⟩) ⟨0⟩ = .ok .passed ∧
      recordHistory 8 (floatPlan ⟨0⟩) ⟨0⟩ ≠
        recordHistory 8 (floatPlan ⟨0x8000000000000000⟩) ⟨0⟩ := by
  decide +kernel

end Propsim.Simulator
