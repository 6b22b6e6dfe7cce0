import Propsim.Core.Plan

/-!
# The seeded random source

`rng.rs`: SplitMix64, with the probability roll and the range sample that the simulator takes from
it. The roll compares a multiple of `2^-53` with a binary64 probability, which is exact.
-/

set_option autoImplicit false
set_option relaxedAutoImplicit false

namespace Propsim.Simulator

open Foundation

/-- A seeded SplitMix64 generator. -/
structure SimRng where
  state : UInt64
  deriving DecidableEq, Repr

namespace SimRng

/-- Seeds the generator. -/
def new (seed : UInt64) : SimRng := ⟨seed⟩

/-- The output function of SplitMix64. -/
def mix (state : UInt64) : UInt64 :=
  let z := (state ^^^ (state >>> 30)) * 0xBF58476D1CE4E5B9
  let z := (z ^^^ (z >>> 27)) * 0x94D049BB133111EB
  z ^^^ (z >>> 31)

/-- The raw SplitMix64 step. -/
def next (rng : SimRng) : UInt64 × SimRng :=
  let state := 0x9E3779B97F4A7C15 + rng.state
  (mix state, ⟨state⟩)

/-- A multiple of `2^-53` lies below a probability. -/
def isBelow (numerator : UInt64) (p : Binary64) : Bool :=
  !p.isNaN && decide ((numerator.toNat : ℤ) * 2 ^ 1021 < p.scaled)

/-- True with probability `p`, clamped to `[0, 1]`. -/
def chance (rng : SimRng) (p : Binary64) : Bool × SimRng :=
  if p.le .zero then (false, rng)
  else if Binary64.one.le p then (true, rng)
  else
    let (z, rng) := rng.next
    (isBelow (z >>> 11) p, rng)

/-- A number in `[lo, hi)`, or `lo` when the range is empty. -/
def rangeU64 (rng : SimRng) (lo hi : UInt64) : UInt64 × SimRng :=
  if hi ≤ lo then (lo, rng)
  else
    let (z, rng) := rng.next
    (lo + z % (hi - lo), rng)

/-- A number of a range is in it. -/
theorem rangeU64_mem (rng : SimRng) {lo hi : UInt64} (h : lo < hi) :
    lo ≤ (rng.rangeU64 lo hi).1 ∧ (rng.rangeU64 lo hi).1 < hi := by
  rw [rangeU64, if_neg (UInt64.not_le.mpr h)]
  simp only [UInt64.le_iff_toNat_le, UInt64.lt_iff_toNat_lt] at h ⊢
  have hspan : (hi - lo).toNat = hi.toNat - lo.toNat := UInt64.toNat_sub_of_le _ _ (by
    rw [UInt64.le_iff_toNat_le]
    exact h.le)
  have hmod : rng.next.1.toNat % (hi.toNat - lo.toNat) < hi.toNat - lo.toNat :=
    Nat.mod_lt _ (by omega)
  have hhi := hi.toNat_lt
  rw [UInt64.toNat_add, UInt64.toNat_mod, hspan, Nat.mod_eq_of_lt (by omega)]
  omega

/-- An empty range yields its start. -/
theorem rangeU64_empty (rng : SimRng) {lo hi : UInt64} (h : hi ≤ lo) :
    (rng.rangeU64 lo hi).1 = lo := by
  rw [rangeU64, if_pos h]

/-! ### The cycle of the generator -/

/-- The generator after a number of draws. -/
def after (rng : SimRng) (draws : ℕ) : SimRng := ⟨.ofNat draws * 0x9E3779B97F4A7C15 + rng.state⟩

theorem after_zero (rng : SimRng) : rng.after 0 = rng := by
  simp [after]

theorem after_after (rng : SimRng) (m n : ℕ) : (rng.after m).after n = rng.after (m + n) := by
  simp only [after, UInt64.ofNat_add, UInt64.add_mul, SimRng.mk.injEq]
  rw [← UInt64.add_assoc, UInt64.add_comm (_ * _) (_ * _)]

theorem next_eq_after (rng : SimRng) : rng.next.2 = rng.after 1 := by
  simp [next, after]

theorem chance_eq_after (rng : SimRng) (p : Binary64) :
    ∃ draws, (rng.chance p).2 = rng.after draws := by
  unfold chance
  split_ifs
  · exact ⟨0, (after_zero rng).symm⟩
  · exact ⟨0, (after_zero rng).symm⟩
  · exact ⟨1, next_eq_after rng⟩

theorem rangeU64_eq_after (rng : SimRng) (lo hi : UInt64) :
    ∃ draws, (rng.rangeU64 lo hi).2 = rng.after draws := by
  unfold rangeU64
  split_ifs
  · exact ⟨0, (after_zero rng).symm⟩
  · exact ⟨1, next_eq_after rng⟩

/-- The generator comes back to its state after `2 ^ 64` draws. -/
theorem after_cycle (rng : SimRng) (n : ℕ) : rng.after (n * 2 ^ 64) = rng := by
  simp [after]

end SimRng

end Propsim.Simulator
