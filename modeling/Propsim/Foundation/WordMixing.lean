import Mathlib.Data.FinEnum
import Mathlib.Data.Int.ModEq
import Mathlib.Data.Nat.ModEq
import Mathlib.Data.Nat.Prime.Basic
import Mathlib.Order.Interval.Set.Basic

/-!
# Mixing words without losing them

The steps of mixing functions on words of a fixed width: a word is combined with its own right
shift, and it is multiplied by an odd constant. Both are invertible, so a chain of them permutes the
words. Adding an odd constant over and over meets every word before it repeats one.
-/

set_option autoImplicit false
set_option relaxedAutoImplicit false

namespace Propsim.Foundation

section Words

variable {w : ℕ}

/-- A word can be told from its combination with its own right shift: its bits come back from the
highest down. -/
theorem xorShift_injective {k : ℕ} (hk : 0 < k) :
    Function.Injective fun x : BitVec w ↦ x ^^^ (x >>> k) := by
  intro x y hxy
  have hbits (d : ℕ) : ∀ i, w ≤ i + d → x.getLsbD i = y.getLsbD i := by
    induction d with
    | zero =>
      intro i hi
      rw [BitVec.getLsbD_of_ge x i (by omega), BitVec.getLsbD_of_ge y i (by omega)]
    | succ d ih =>
      intro i hi
      have hbit := congrArg (BitVec.getLsbD · i) hxy
      simp only [BitVec.getLsbD_xor, BitVec.getLsbD_ushiftRight] at hbit
      rw [ih (k + i) (by omega)] at hbit
      exact Bool.xor_left_inj.mp hbit
  exact BitVec.eq_of_getLsbD_eq fun i hi ↦ hbits w i (by omega)

/-- Multiplication by an odd word is injective. -/
theorem mulOdd_injective {c : BitVec w} (hc : Odd c.toNat) :
    Function.Injective fun x : BitVec w ↦ x * c := by
  intro x y hxy
  have hproducts : x.toNat * c.toNat ≡ y.toNat * c.toNat [MOD 2 ^ w] := by
    have hnat := congrArg BitVec.toNat hxy
    simp only [BitVec.toNat_mul] at hnat
    exact hnat
  have hcoprime : Nat.gcd (2 ^ w) c.toNat = 1 := (Nat.coprime_two_left.mpr hc).pow_left w
  have hwords := hproducts.cancel_right_of_coprime hcoprime
  refine BitVec.eq_of_toNat_eq ?_
  rwa [Nat.ModEq, Nat.mod_eq_of_lt x.isLt, Nat.mod_eq_of_lt y.isLt] at hwords

end Words

/-! ### Sixty-four bits -/

theorem xorShift64_injective {k : UInt64} (hk : 0 < k.toNat % 64) :
    Function.Injective fun x : UInt64 ↦ x ^^^ (x >>> k) := by
  intro x y hxy
  have hbits := congrArg UInt64.toBitVec hxy
  simp only [UInt64.toBitVec_xor, UInt64.toBitVec_shiftRight, BitVec.ushiftRight_eq'] at hbits
  exact UInt64.toBitVec_inj.mp (xorShift_injective hk hbits)

theorem mulOdd64_injective {c : UInt64} (hc : Odd c.toNat) :
    Function.Injective fun x : UInt64 ↦ x * c := by
  intro x y hxy
  have hbits := congrArg UInt64.toBitVec hxy
  simp only [UInt64.toBitVec_mul] at hbits
  exact UInt64.toBitVec_inj.mp (mulOdd_injective hc hbits)

/-- The numbers of a window of `2 ^ 64` are different words. -/
theorem ofNat64_injOn (start : ℕ) :
    Set.InjOn UInt64.ofNat (Set.Ico start (start + 2 ^ 64)) := by
  rintro i ⟨hi, hi'⟩ j ⟨hj, hj'⟩ hij
  have hmod : i % 2 ^ 64 = j % 2 ^ 64 := by simpa using congrArg UInt64.toNat hij
  omega

/-- Sums with an odd step do not repeat in a window of `2 ^ 64`. -/
theorem oddStep_injOn {c : UInt64} (hc : Odd c.toNat) (s : UInt64) (start : ℕ) :
    Set.InjOn (fun i ↦ .ofNat i * c + s) (Set.Ico start (start + 2 ^ 64)) := by
  intro i hi j hj hij
  have hproducts : UInt64.ofNat i * c = .ofNat j * c := UInt64.add_left_inj s |>.mp hij
  exact ofNat64_injOn start hi hj (mulOdd64_injective hc hproducts)

end Propsim.Foundation
