import Propsim.Foundation.RadixText
import Propsim.Foundation.WordMixing
import Propsim.Simulator.Reproduction

/-!
# Seeds: their texts, and those that a plan derives

`seed.rs` prints a seed as `0x` and sixteen hexadecimal digits, and reads this text and the decimal
one back. The text of a violation tells a reader to set `PROPSIM_SEED` to it, and a drive with this
override begins with the seed that was printed and ends with the same violation.

Without the override the seed of a run is the first draw of a generator that is seeded with the
index of the run. The output function of SplitMix64 permutes the words, and its increment is odd, so
neither the draws of a generator nor the seeds of a plan repeat within `2 ^ 64`.
-/

set_option autoImplicit false
set_option relaxedAutoImplicit false

namespace Propsim.Simulator

open Foundation Interchange Propsim.Core

/-! ### Texts -/

/-- The `Display` of a seed. -/
def displaySeed (seed : Seed) : String :=
  .ofList ('0' :: 'x' :: showRadix 16 16 seed.val.toNat)

/-- The `Display` of a number. -/
def displayU64 (x : UInt64) : String := .ofList (Nat.toDigits 10 x.toNat)

/-- The `Display` of a negotiation error. -/
def displayBackendError : BackendError → String
  | .whiteBoxOraclesOnBlackBoxExecutor names =>
    "the following oracle(s) read internal node state, but the chosen executor is black-box " ++
      "(produces no world snapshots): " ++ ", ".intercalate names ++
    ". Use the deterministic executor, or target a history-based oracle."

/-- The `Display` of a failure. -/
def displayRunFailure : RunFailure → String
  | .negotiation error => displayBackendError error
  | .violation name seed _ =>
    "FAILED property `" ++ name ++ "`  (re-run: PROPSIM_SEED=" ++ displaySeed seed ++ ")"
  | .noExecutor =>
    "no executor available: this build ships only the propsim-core contract (Tier 1). Add the " ++
      "deterministic executor (propsim-sim) to run plans."

example : displaySeed ⟨0xC0FFEE⟩ = "0x0000000000c0ffee" := by decide +kernel

/-- The text of a seed between white space is read as the seed. -/
theorem parseSeed_displaySeed {before after : List Char} (hbefore : ∀ c ∈ before, isWhitespace c)
    (hafter : ∀ c ∈ after, isWhitespace c) (seed : Seed) :
    parseSeed (.ofList before ++ displaySeed seed ++ .ofList after) = some seed := by
  have hspace : ∀ d < 16, isWhitespace d.digitChar = false := by decide
  have htext : ∀ c ∈ '0' :: 'x' :: showRadix 16 16 seed.val.toNat, isWhitespace c = false := by
    refine List.forall_mem_cons.mpr ⟨by decide, List.forall_mem_cons.mpr ⟨by decide, fun c hc ↦ ?_⟩⟩
    obtain ⟨d, hd, rfl⟩ := mem_showRadix (by decide) hc
    exact hspace d hd
  simp only [parseSeed, displaySeed, String.toList_append, String.toList_ofList]
  rw [trim_surrounded hbefore hafter htext]
  simp only
  rw [parseU64_showRadix (by decide) le_rfl]
  rfl

/-- The decimal text of a number between white space is read as the seed. -/
theorem parseSeed_displayU64 {before after : List Char} (hbefore : ∀ c ∈ before, isWhitespace c)
    (hafter : ∀ c ∈ after, isWhitespace c) (x : UInt64) :
    parseSeed (.ofList before ++ displayU64 x ++ .ofList after) = some ⟨x⟩ := by
  have hdigits : Nat.toDigits 10 x.toNat = showRadix 10 0 x.toNat := by
    rw [showRadix, List.leftpad, Nat.zero_sub, List.replicate_zero, List.nil_append]
  have hspace : ∀ d < 10, isWhitespace d.digitChar = false ∧ d.digitChar ≠ 'x' ∧
      d.digitChar ≠ 'X' := by decide
  have htext : ∀ c ∈ showRadix 10 0 x.toNat, isWhitespace c = false ∧ c ≠ 'x' ∧ c ≠ 'X' := by
    intro c hc
    obtain ⟨d, hd, rfl⟩ := mem_showRadix (by decide) hc
    exact hspace d hd
  simp only [parseSeed, displayU64, String.toList_append, String.toList_ofList, hdigits]
  rw [trim_surrounded hbefore hafter fun c hc ↦ (htext c hc).1]
  split
  · rename_i hex heq
    exact absurd rfl (htext 'x' (by simp [heq])).2.1
  · rename_i hex heq
    exact absurd rfl (htext 'X' (by simp [heq])).2.2
  · rw [parseU64_showRadix (by decide) (by decide)]
    rfl

/-- A seed that is handed over in its text is the seed of the first run. -/
theorem effectiveSeed_displaySeed (seed : Seed) :
    effectiveSeed (some (displaySeed seed)) 0 = seed := by
  have hread := parseSeed_displaySeed (List.forall_mem_nil _) (List.forall_mem_nil _) seed
  rw [String.ofList_nil, String.empty_append, String.append_empty] at hread
  rw [effectiveSeed, if_pos rfl, Option.bind_some, hread]
  rfl

section Drives

variable {N : Node} {fuel : ℕ} {propsimSeed : Option String} {plan : TestPlan N}
  {backend : Backend} {name : String} {seed : Seed} {scenario : Scenario}

/-- A drive that is handed the text of the seed of a violation ends with the violation. -/
theorem drive_displaySeed
    (h : drive fuel propsimSeed plan backend = .ok (.error (.violation name seed scenario))) :
    drive fuel (some (displaySeed seed)) plan backend =
      .ok (.error (.violation name seed scenario)) := by
  have hseed := driveSeed_of_driveFrom h
  obtain ⟨more, hmore⟩ : ∃ more, (max plan.data.seeds 1).toNat = more + 1 :=
    Nat.exists_eq_add_one.mpr (max_one_pos plan.data.seeds)
  rw [drive, hmore, driveFrom, effectiveSeed_displaySeed, hseed]
  rfl

end Drives

/-- Seeds survive their texts: the text of a seed and the decimal text of its number are read as the
seed, whatever white space is around them, and so is the text of every seed that is read from
anything. The text makes it the seed of the first run, and a drive that is handed the text which a
violation prints ends with the violation. -/
theorem seeds_survive_texts :
    (∀ (x : UInt64) (before after : List Char), (∀ c ∈ before, isWhitespace c) →
      (∀ c ∈ after, isWhitespace c) →
        parseSeed (.ofList before ++ displaySeed ⟨x⟩ ++ .ofList after) = some ⟨x⟩ ∧
          parseSeed (.ofList before ++ displayU64 x ++ .ofList after) = some ⟨x⟩) ∧
    (∀ s seed, parseSeed s = some seed → parseSeed (displaySeed seed) = some seed) ∧
    (∀ seed, effectiveSeed (some (displaySeed seed)) 0 = seed) ∧
    ∀ (N : Node) (fuel : ℕ) (propsimSeed : Option String) (plan : TestPlan N) (backend : Backend)
      (name : String) (seed : Seed) (scenario : Scenario),
      drive fuel propsimSeed plan backend = .ok (.error (.violation name seed scenario)) →
        ∃ text, displayRunFailure (.violation name seed scenario) =
            "FAILED property `" ++ name ++ "`  (re-run: PROPSIM_SEED=" ++ text ++ ")" ∧
          drive fuel (some text) plan backend =
            .ok (.error (.violation name seed scenario)) := by
  refine ⟨fun x before after hbefore hafter ↦ ?_, fun s seed _ ↦ ?_, effectiveSeed_displaySeed,
    fun N fuel propsimSeed plan backend name seed scenario h ↦
      ⟨displaySeed seed, rfl, drive_displaySeed h⟩⟩
  · exact ⟨parseSeed_displaySeed hbefore hafter ⟨x⟩, parseSeed_displayU64 hbefore hafter x⟩
  · simpa using parseSeed_displaySeed (List.forall_mem_nil _) (List.forall_mem_nil _) seed

/-- A seed between a space and a line feed. -/
theorem paddedSeed_read : parseSeed " 0x0000000000c0ffee\n" = some ⟨0xC0FFEE⟩ := by
  have htexts := seeds_survive_texts.1 0xC0FFEE [' '] ['\n']
    (List.forall_mem_singleton.mpr (by decide)) (List.forall_mem_singleton.mpr (by decide))
  have htext : String.ofList [' '] ++ displaySeed ⟨0xC0FFEE⟩ ++ .ofList ['\n'] =
      " 0x0000000000c0ffee\n" := by decide +kernel
  exact htext ▸ htexts.1

/-! ### Draws -/

namespace SimRng

/-- The draw at an index. -/
def draw : SimRng → ℕ → UInt64
  | rng, 0 => rng.next.1
  | rng, i + 1 => rng.next.2.draw i

theorem draw_eq (rng : SimRng) (i : ℕ) : rng.draw i = (rng.after i).next.1 := by
  induction i generalizing rng with
  | zero => rw [draw, after_zero]
  | succ i ih => rw [draw, ih, next_eq_after, after_after, Nat.add_comm]

/-- The output function of SplitMix64 permutes the words. -/
theorem mix_bijective : Function.Bijective mix := by
  refine Finite.injective_iff_bijective.mp ?_
  have hfirst : Function.Injective fun z : UInt64 ↦ z ^^^ (z >>> 30) :=
    xorShift64_injective (by decide)
  have hsecond : Function.Injective fun z : UInt64 ↦ z ^^^ (z >>> 27) :=
    xorShift64_injective (by decide)
  have hthird : Function.Injective fun z : UInt64 ↦ z ^^^ (z >>> 31) :=
    xorShift64_injective (by decide)
  have hmul : Function.Injective fun z : UInt64 ↦ z * 0xBF58476D1CE4E5B9 :=
    mulOdd64_injective (by decide)
  have hmul' : Function.Injective fun z : UInt64 ↦ z * 0x94D049BB133111EB :=
    mulOdd64_injective (by decide)
  exact hthird.comp (hmul'.comp (hsecond.comp (hmul.comp hfirst)))

/-- The draws of a window of `2 ^ 64` are different. -/
theorem draw_injOn (rng : SimRng) (start : ℕ) :
    Set.InjOn rng.draw (Set.Ico start (start + 2 ^ 64)) := by
  have hodd : Odd (0x9E3779B97F4A7C15 : UInt64).toNat := by decide
  intro i hi j hj hij
  rw [draw_eq, draw_eq] at hij
  have hstates := mix_bijective.injective hij
  exact oddStep_injOn hodd rng.state start hi hj (UInt64.add_right_inj _ |>.mp hstates)

end SimRng

/-! ### Derived seeds -/

/-- Without an override, different runs below `2 ^ 64` have different seeds. -/
theorem effectiveSeed_injOn {propsimSeed : Option String}
    (hnone : propsimSeed.bind parseSeed = none) :
    Set.InjOn (effectiveSeed propsimSeed) (Set.Iio (2 ^ 64)) := by
  have hderived (s : ℕ) :
      effectiveSeed propsimSeed s = ⟨(SimRng.new (0x5EED0000 ^^^ .ofNat s)).next.1⟩ := by
    rw [effectiveSeed, hnone, Option.getD_none, ite_self]
  intro s hs t ht hst
  rw [hderived, hderived] at hst
  have hstates := SimRng.mix_bijective.injective (Seed.mk.inj hst)
  have hindices := UInt64.xor_right_inj _ |>.mp (UInt64.add_right_inj _ |>.mp hstates)
  exact ofNat64_injOn 0 ⟨Nat.zero_le s, by simpa using hs⟩ ⟨Nat.zero_le t, by simpa using ht⟩
    hindices

/-- SplitMix64 repeats nothing within `2 ^ 64`: its output function permutes the words, the draws of
a window are different whatever the seed, and without an override so are the seeds of the runs below
`2 ^ 64`, hence those of the runs of a plan. -/
theorem splitMix_repeats_nothing {propsimSeed : Option String}
    (hnone : propsimSeed.bind parseSeed = none) :
    Function.Bijective SimRng.mix ∧
    (∀ (seed : UInt64) (start : ℕ),
      Set.InjOn (SimRng.new seed).draw (Set.Ico start (start + 2 ^ 64))) ∧
    Set.InjOn (effectiveSeed propsimSeed) (Set.Iio (2 ^ 64)) ∧
    ∀ data : PlanData,
      ((List.range (max data.seeds 1).toNat).map (effectiveSeed propsimSeed)).Nodup := by
  have hinjOn := effectiveSeed_injOn hnone
  refine ⟨SimRng.mix_bijective, fun seed ↦ (SimRng.new seed).draw_injOn, hinjOn, fun data ↦ ?_⟩
  refine List.nodup_range.map_on fun s hs t ht hst ↦ hinjOn ?_ ?_ hst
  · exact (List.mem_range.mp hs).trans (max data.seeds 1).toNat_lt
  · exact (List.mem_range.mp ht).trans (max data.seeds 1).toNat_lt

/-- When `PROPSIM_SEED` is not set. -/
theorem unset_repeats_nothing : Set.InjOn (effectiveSeed none) (Set.Iio (2 ^ 64)) :=
  (splitMix_repeats_nothing rfl).2.2.1

end Propsim.Simulator
