import Mathlib.Data.List.TakeWhile
import Mathlib.Tactic.IntervalCases
import Propsim.Foundation.NumberText

/-!
# Numbers in a radix

The digits of a number in a radix of at most sixteen, with leading zeros up to a width, and how they
are read back. Trimming removes the white space around a text that has none of its own.
-/

set_option autoImplicit false
set_option relaxedAutoImplicit false

namespace Propsim.Foundation

/-- The digits of a number in a radix, padded with zeros to a width. -/
def showRadix (radix width n : ℕ) : List Char := (Nat.toDigits radix n).leftpad width '0'

section Digits

variable {radix : ℕ}

theorem digitValue_digitChar (hradix : radix ≤ 16) {d : ℕ} (hd : d < radix) :
    digitValue radix d.digitChar = some d := by
  have hlt : d < 16 := hd.trans_le hradix
  interval_cases d <;> simp [digitValue, Nat.digitChar, hd]

theorem digitsValue_of_ne_nil {digits : List Char} (h : digits ≠ []) :
    digitsValue radix digits =
      digits.foldlM (fun value c ↦ (digitValue radix c).map (value * radix + ·)) 0 := by
  cases digits with
  | nil => exact absurd rfl h
  | cons c digits => rfl

/-- Reading the digits of a number behind a value, by induction on the number. -/
theorem foldlM_toDigits (hbase : 1 < radix) (hradix : radix ≤ 16) (n value : ℕ) :
    (Nat.toDigits radix n).foldlM (fun value c ↦ (digitValue radix c).map (value * radix + ·))
      value = some (value * radix ^ (Nat.toDigits radix n).length + n) := by
  induction n using Nat.strong_induction_on with
  | _ n ih =>
    by_cases hlt : n < radix
    · rw [Nat.toDigits_of_lt_base hlt, List.foldlM_cons, digitValue_digitChar hradix hlt,
        List.length_singleton, pow_one]
      rfl
    · have hle := not_lt.mp hlt
      have hquotient := ih (n / radix) (Nat.div_lt_self (by omega) hbase)
      have hdigit : digitValue radix (n % radix).digitChar = some (n % radix) :=
        digitValue_digitChar hradix (Nat.mod_lt _ (by omega))
      rw [Nat.toDigits_of_base_le hbase hle, List.foldlM_append, hquotient, Option.bind_eq_bind,
        Option.bind_some, List.foldlM_cons, hdigit, List.length_append, List.length_singleton,
        pow_succ]
      change some ((value * radix ^ _ + n / radix) * radix + n % radix) = _
      rw [Nat.add_mul, Nat.add_assoc, Nat.div_add_mod', Nat.mul_assoc]

/-- Leading zeros have no value. -/
theorem foldlM_zeros (hradix : 0 < radix) (count : ℕ) :
    (List.replicate count '0').foldlM
      (fun value c ↦ (digitValue radix c).map (value * radix + ·)) 0 = some 0 := by
  have hzero : digitValue radix '0' = some 0 := by simp [digitValue, hradix]
  induction count with
  | zero => rfl
  | succ count ih =>
    rw [List.replicate_succ, List.foldlM_cons, hzero, Option.map_some, Nat.zero_mul]
    exact ih

theorem showRadix_ne_nil {width n : ℕ} : showRadix radix width n ≠ [] := by
  exact List.append_ne_nil_of_right_ne_nil _ Nat.toDigits_ne_nil

/-- Padded digits are read back. -/
theorem digitsValue_showRadix (hbase : 1 < radix) (hradix : radix ≤ 16) (width n : ℕ) :
    digitsValue radix (showRadix radix width n) = some n := by
  rw [digitsValue_of_ne_nil showRadix_ne_nil, showRadix, List.leftpad, List.foldlM_append,
    foldlM_zeros (by omega), Option.bind_eq_bind, Option.bind_some,
    foldlM_toDigits hbase hradix, Nat.zero_mul, Nat.zero_add]

/-- A sixty-four bit number is read back from its padded digits. -/
theorem parseU64_showRadix (hbase : 1 < radix) (hradix : radix ≤ 16) (width : ℕ) (x : UInt64) :
    parseU64 radix (showRadix radix width x.toNat) = some x := by
  have hvalue := digitsValue_showRadix hbase hradix width x.toNat
  have hsign (rest : List Char) : showRadix radix width x.toNat ≠ '+' :: rest := by
    intro heq
    rw [heq, digitsValue_of_ne_nil (List.cons_ne_nil _ _), List.foldlM_cons,
      show digitValue radix '+' = none by simp [digitValue]] at hvalue
    cases hvalue
  -- The digits have no sign, so all of the text is read.
  simp only [parseU64]
  rw [hvalue, Option.filter_some, if_pos (decide_eq_true x.toNat_lt), Option.map_some,
    UInt64.ofNat_toNat]

/-- The characters of padded digits are digits of the radix. -/
theorem mem_showRadix (hbase : 1 < radix) {width n : ℕ} {c : Char}
    (h : c ∈ showRadix radix width n) : ∃ d < radix, c = d.digitChar := by
  have hdigits (n : ℕ) : ∀ c ∈ Nat.toDigits radix n, ∃ d < radix, c = d.digitChar := by
    induction n using Nat.strong_induction_on with
    | _ n ih =>
      by_cases hlt : n < radix
      · rw [Nat.toDigits_of_lt_base hlt]
        exact fun c hc ↦ ⟨n, hlt, List.mem_singleton.mp hc⟩
      · rw [Nat.toDigits_of_base_le hbase (not_lt.mp hlt), List.forall_mem_append]
        refine ⟨ih _ (Nat.div_lt_self (by omega) hbase), fun c hc ↦ ?_⟩
        exact ⟨n % radix, Nat.mod_lt _ (by omega), List.mem_singleton.mp hc⟩
  rw [showRadix, List.leftpad, List.mem_append] at h
  rcases h with h | h
  · exact ⟨0, by omega, (List.mem_replicate.mp h).2⟩
  · exact hdigits n c h

end Digits

/-! ### White space around a text -/

/-- Trimming leaves a text without white space of its own. -/
theorem trim_surrounded {before text after : List Char}
    (hbefore : ∀ c ∈ before, isWhitespace c) (hafter : ∀ c ∈ after, isWhitespace c)
    (htext : ∀ c ∈ text, isWhitespace c = false) : trim (before ++ text ++ after) = text := by
  have hskip {first rest : List Char} (hfirst : ∀ c ∈ first, isWhitespace c)
      (hrest : ∀ c ∈ rest.head?, isWhitespace c = false) :
      (first ++ rest).dropWhile isWhitespace = rest := by
    rw [List.dropWhile_append_of_pos hfirst]
    cases rest with
    | nil => rfl
    | cons c rest => exact List.dropWhile_cons_of_neg (by simp [hrest c rfl])
  cases text with
  | nil =>
    have hall : ∀ c ∈ before ++ after, isWhitespace c :=
      List.forall_mem_append.mpr ⟨hbefore, hafter⟩
    rw [trim, List.append_nil, List.dropWhile_eq_nil_iff.mpr hall]
    rfl
  | cons c text =>
    have hstart : ((before ++ c :: text ++ after).dropWhile isWhitespace) = c :: text ++ after := by
      rw [List.append_assoc]
      exact hskip hbefore fun d hd ↦ htext d (by simp_all)
    have hend : (after.reverse ++ (c :: text).reverse).dropWhile isWhitespace =
        (c :: text).reverse := by
      refine hskip (fun d hd ↦ hafter d (List.mem_reverse.mp hd)) fun d hd ↦ htext d ?_
      exact List.mem_reverse.mp (List.mem_of_mem_head? hd)
    rw [trim, hstart, List.reverse_append, hend, List.reverse_reverse]

end Propsim.Foundation
