import Mathlib.Algebra.Group.Int.Defs
import Mathlib.Algebra.Group.Nat.Defs
import Mathlib.Data.Int.Order.Basic

/-!
# IEEE 754 binary64 values by their bits

A value is its 64-bit pattern. Comparison goes through `scaled`, the value multiplied by `2^1074`,
which is an integer for every finite value and keeps the two infinities outside the finite range.
Comparisons are false when an operand is not a number, and the two zeros are equal.
-/

set_option autoImplicit false
set_option relaxedAutoImplicit false

namespace Propsim.Foundation

/-- A binary64 value: sign, exponent and fraction in one 64-bit word. -/
structure Binary64 where
  bits : UInt64
  deriving DecidableEq, Repr

namespace Binary64

/-- The eleven exponent bits. -/
def exponentField (x : Binary64) : ℕ := x.bits.toNat / 2 ^ 52 % 2 ^ 11

/-- The fifty-two fraction bits. -/
def fractionField (x : Binary64) : ℕ := x.bits.toNat % 2 ^ 52

/-- The sign bit. -/
def isSignNegative (x : Binary64) : Bool := 2 ^ 63 ≤ x.bits.toNat

/-- Neither infinite nor a NaN. -/
def isFinite (x : Binary64) : Bool := x.exponentField != 2047

/-- Not a number. -/
def isNaN (x : Binary64) : Bool := x.exponentField == 2047 && x.fractionField != 0

/-- The magnitude in units of `2^-1074`. An infinity comes out as `2^2098`, above every finite
magnitude. -/
def magnitude (x : Binary64) : ℕ :=
  if x.exponentField = 0 then x.fractionField
  else (2 ^ 52 + x.fractionField) * 2 ^ (x.exponentField - 1)

/-- The value in units of `2^-1074`. -/
def scaled (x : Binary64) : ℤ :=
  if x.isSignNegative then -(x.magnitude : ℤ) else x.magnitude

/-- The IEEE `==`. -/
def eq (x y : Binary64) : Bool := !x.isNaN && !y.isNaN && x.scaled == y.scaled

/-- The IEEE `<=`. -/
def le (x y : Binary64) : Bool := !x.isNaN && !y.isNaN && decide (x.scaled ≤ y.scaled)

/-- Positive zero. -/
def zero : Binary64 := ⟨0⟩

/-- One. -/
def one : Binary64 := ⟨0x3FF0000000000000⟩

/-- A quotient rounded to the nearest integer, and to the even one of two nearest. -/
def roundQuotient (n d : ℕ) : ℕ :=
  if 2 * (n % d) < d ∨ 2 * (n % d) = d ∧ n / d % 2 = 0 then n / d else n / d + 1

/-- The value nearest to a natural number. A significand that is rounded up to `2^53` carries into
the exponent, and what is too large comes out as infinity. -/
def ofNat (n : ℕ) : Binary64 :=
  if n = 0 then zero
  else
    let e := n.log2
    let significand := if e ≤ 52 then n * 2 ^ (52 - e) else roundQuotient n (2 ^ (e - 52))
    ⟨.ofNat (min ((e + 1022) * 2 ^ 52 + significand) (2047 * 2 ^ 52))⟩

/-- The value with the sign bit set. -/
def neg (x : Binary64) : Binary64 := ⟨x.bits ||| 0x8000000000000000⟩

example : ofNat (2 ^ 63 + 1) = ofNat (2 ^ 63) := by decide +kernel

example : one.scaled = 2 ^ 1074 := by decide +kernel

/-- Equality is symmetric. -/
theorem eq_comm (x y : Binary64) : x.eq y = y.eq x := by
  simp only [eq, Bool.and_comm (!x.isNaN), Bool.beq_comm (a := x.scaled)]

/-- The fraction is below its implicit bit. -/
theorem fractionField_lt (x : Binary64) : x.fractionField < 2 ^ 52 := Nat.mod_lt _ (by decide)

/-- The exponent bounds the magnitude. -/
theorem magnitude_lt (x : Binary64) : x.magnitude < 2 ^ (52 + x.exponentField) := by
  have hfraction := x.fractionField_lt
  unfold magnitude
  split_ifs with h
  · rwa [h]
  · obtain ⟨e, he⟩ := Nat.exists_eq_succ_of_ne_zero h
    have hsplit : 2 ^ (52 + x.exponentField) = 2 ^ 53 * 2 ^ e := by
      rw [he, ← Nat.pow_add]
      congr 1
      omega
    rw [hsplit, he, Nat.succ_sub_one]
    exact Nat.mul_lt_mul_of_pos_right (by omega) (Nat.two_pow_pos e)

/-- The magnitude of a normal number is at least that of its implicit bit. -/
theorem le_magnitude {x : Binary64} (h : x.exponentField ≠ 0) :
    2 ^ (51 + x.exponentField) ≤ x.magnitude := by
  obtain ⟨e, he⟩ := Nat.exists_eq_succ_of_ne_zero h
  have hsplit : 2 ^ (51 + x.exponentField) = 2 ^ 52 * 2 ^ e := by
    rw [he, ← Nat.pow_add]
    congr 1
    omega
  rw [magnitude, if_neg h, hsplit, he, Nat.succ_sub_one]
  exact Nat.mul_le_mul_right _ (Nat.le_add_right _ _)

/-- A greater exponent makes a greater magnitude. -/
theorem magnitude_lt_of_exponentField_lt {x y : Binary64} (h : x.exponentField < y.exponentField) :
    x.magnitude < y.magnitude :=
  calc x.magnitude < 2 ^ (52 + x.exponentField) := x.magnitude_lt
    _ ≤ 2 ^ (51 + y.exponentField) := Nat.pow_le_pow_right (by decide) (by omega)
    _ ≤ y.magnitude := le_magnitude (by omega)

/-- The magnitude fixes the exponent and the fraction. -/
theorem fields_eq_of_magnitude_eq {x y : Binary64} (h : x.magnitude = y.magnitude) :
    x.exponentField = y.exponentField ∧ x.fractionField = y.fractionField := by
  have hexponent : x.exponentField = y.exponentField := by
    rcases Nat.lt_trichotomy x.exponentField y.exponentField with hlt | heq | hgt
    · exact absurd h (Nat.ne_of_lt (magnitude_lt_of_exponentField_lt hlt))
    · exact heq
    · exact absurd h (Nat.ne_of_gt (magnitude_lt_of_exponentField_lt hgt))
  refine ⟨hexponent, ?_⟩
  unfold magnitude at h
  rw [hexponent] at h
  split_ifs at h with hzero
  · exact h
  · have hcancel := Nat.eq_of_mul_eq_mul_right (Nat.two_pow_pos _) h
    omega

/-- Numbers that are equal and not zero have the same bits. -/
theorem eq_of_eq {x y : Binary64} (h : x.eq y = true) (hzero : x.scaled ≠ 0) : x = y := by
  simp only [eq, Bool.and_eq_true, beq_iff_eq] at h
  have hscaled := h.2
  unfold scaled at hscaled hzero
  have hsign : x.isSignNegative = y.isSignNegative := by
    by_contra hdiffers
    split_ifs at hscaled hzero with hx hy hy
    · exact hdiffers (hx.trans hy.symm)
    · omega
    · omega
    · simp only [Bool.not_eq_true] at hx hy
      exact hdiffers (hx.trans hy.symm)
  have hmagnitude : x.magnitude = y.magnitude := by
    rw [hsign] at hscaled
    split_ifs at hscaled <;> omega
  obtain ⟨hexponent, hfraction⟩ := fields_eq_of_magnitude_eq hmagnitude
  have hx := x.bits.toNat_lt
  have hy := y.bits.toNat_lt
  simp only [exponentField, fractionField, isSignNegative, decide_eq_decide] at *
  have hbits : x.bits.toNat = y.bits.toNat := by omega
  cases x
  cases y
  simpa [UInt64.toNat_inj] using hbits

end Binary64

end Propsim.Foundation
