import Mathlib.Algebra.Group.Int.Defs
import Mathlib.Algebra.Group.Nat.Defs
import Mathlib.Data.Nat.Basic

/-!
# Trimming, lines and integer literals

The text functions of the Rust standard library that the parsers of the repository rest on: `trim`
by the Unicode property White_Space, `lines`, and the integer parsers, which take an optional sign
and then at least one digit of the radix, and fail when the value does not fit.
-/

set_option autoImplicit false
set_option relaxedAutoImplicit false

namespace Propsim.Foundation

/-- The Unicode property White_Space. -/
def isWhitespace (c : Char) : Bool :=
  let n := c.toNat
  (9 ≤ n && n ≤ 13) || n == 0x20 || n == 0x85 || n == 0xA0 || n == 0x1680 ||
    (0x2000 ≤ n && n ≤ 0x200A) || n == 0x2028 || n == 0x2029 || n == 0x202F || n == 0x205F ||
    n == 0x3000

/-- A text without its leading and trailing white space. -/
def trim (text : List Char) : List Char :=
  ((text.dropWhile isWhitespace).reverse.dropWhile isWhitespace).reverse

/-- `str::trim_start`. -/
def trimStart (text : List Char) : List Char := text.dropWhile isWhitespace

/-- `str::lines`: a line ends at a line feed, and a carriage return before it belongs to the end. -/
def lines : List Char → List (List Char)
  | [] => []
  | '\n' :: rest => [] :: lines rest
  | '\r' :: '\n' :: rest => [] :: lines rest
  | c :: rest =>
    match lines rest with
    | [] => [[c]]
    | line :: more => (c :: line) :: more

/-- A character before the first line feed belongs to the first line. -/
theorem lines_cons {c : Char} {start : List Char} (hline : '\n' ∉ c :: start)
    (hlast : (c :: start).getLast? ≠ some '\r') (rest : List Char) :
    lines (c :: (start ++ rest)) = match lines (start ++ rest) with
      | [] => [[c]]
      | line :: more => (c :: line) :: more := by
  rw [List.mem_cons, not_or] at hline
  rw [lines]
  · exact fun hnewline ↦ hline.1 hnewline.symm
  · -- A carriage return is not the last character of the start.
    rintro tail rfl heq
    cases start with
    | nil => exact hlast rfl
    | cons d start =>
      obtain ⟨rfl, -⟩ := List.cons.inj heq
      exact hline.2 List.mem_cons_self

/-- A terminated line is split off. -/
theorem lines_append {line : List Char} (hline : '\n' ∉ line) (hlast : line.getLast? ≠ some '\r')
    (rest : List Char) : lines (line ++ '\n' :: rest) = line :: lines rest := by
  induction line with
  | nil => rw [List.nil_append, lines]
  | cons c line ih =>
    have hrest : line.getLast? ≠ some '\r' := by
      cases line with
      | nil => simp
      | cons d line => simpa using hlast
    rw [List.cons_append, lines_cons hline hlast,
      ih (fun hmem ↦ hline (List.mem_cons_of_mem _ hmem)) hrest]

/-- The first line starts with what stands before the first line feed. -/
theorem lines_head {c : Char} {start : List Char} (hline : '\n' ∉ c :: start)
    (hlast : (c :: start).getLast? ≠ some '\r') (rest : List Char) :
    ∃ line more, lines (c :: (start ++ rest)) = (c :: (start ++ line)) :: more := by
  induction start generalizing c with
  | nil =>
    rw [lines_cons hline hlast, List.nil_append]
    cases lines rest with
    | nil => exact ⟨[], [], rfl⟩
    | cons line more => exact ⟨line, more, rfl⟩
  | cons d start ih =>
    obtain ⟨line, more, heq⟩ := ih (fun hmem ↦ hline (List.mem_cons_of_mem _ hmem))
      (by simpa using hlast)
    refine ⟨line, more, ?_⟩
    rw [lines_cons hline hlast, List.cons_append, heq]
    rfl

theorem trim_ne_nil {text : List Char} {c : Char} (hc : c ∈ text) (h : isWhitespace c = false) :
    trim text ≠ [] := by
  have hkept {text : List Char} (hc : c ∈ text) : c ∈ text.dropWhile isWhitespace := by
    rw [← List.takeWhile_append_dropWhile (p := isWhitespace) (l := text), List.mem_append] at hc
    refine hc.resolve_left fun hspace ↦ ?_
    have hall := List.all_eq_true.mp (List.all_takeWhile (p := isWhitespace) (l := text)) c hspace
    rw [h] at hall
    cases hall
  exact List.ne_nil_of_mem (List.mem_reverse.mpr (hkept (List.mem_reverse.mpr (hkept hc))))

/-- The value of a digit in a radix of at most sixteen. -/
def digitValue (radix : ℕ) (c : Char) : Option ℕ :=
  let n := c.toNat
  let value :=
    if 48 ≤ n ∧ n ≤ 57 then some (n - 48)
    else if 97 ≤ n ∧ n ≤ 102 then some (n - 87)
    else if 65 ≤ n ∧ n ≤ 70 then some (n - 55)
    else none
  value.filter (· < radix)

/-- The value of a nonempty sequence of digits. -/
def digitsValue (radix : ℕ) : List Char → Option ℕ
  | [] => none
  | digits => digits.foldlM (fun value c ↦ (digitValue radix c).map (value * radix + ·)) 0

/-- `u64::from_str_radix`. -/
def parseU64 (radix : ℕ) (text : List Char) : Option UInt64 :=
  let digits :=
    match text with
    | '+' :: rest => rest
    | text => text
  ((digitsValue radix digits).filter (· < 2 ^ 64)).map .ofNat

/-- `u32::from_str_radix`. -/
def parseU32 (radix : ℕ) (text : List Char) : Option UInt32 :=
  let digits :=
    match text with
    | '+' :: rest => rest
    | text => text
  ((digitsValue radix digits).filter (· < 2 ^ 32)).map .ofNat

/-- `i64::from_str`. -/
def parseI64 (text : List Char) : Option Int64 :=
  let (negative, digits) :=
    match text with
    | '-' :: rest => (true, rest)
    | '+' :: rest => (false, rest)
    | text => (false, text)
  let value := (digitsValue 10 digits).map fun n ↦ if negative then -(n : ℤ) else n
  (value.filter fun i ↦ -2 ^ 63 ≤ i ∧ i < 2 ^ 63).map .ofInt

/-- `i64::to_string`. -/
def showI64 (i : Int64) : List Char :=
  let digits := Nat.toDigits 10 i.toInt.natAbs
  if i.toInt < 0 then '-' :: digits else digits

theorem isDigit_iff {c : Char} : c.isDigit ↔ 48 ≤ c.toNat ∧ c.toNat ≤ 57 := by
  simp [Char.isDigit, UInt32.le_iff_toNat_le]

theorem isAlpha_of_isDigit {c : Char} (h : c.isDigit) : c.isAlpha = false := by
  have hdigit : c.toNat ≤ 57 := (isDigit_iff.mp h).2
  have hsmall {letter : Char} (hletter : 57 < letter.toNat) : ¬letter.val ≤ c.val := fun hle ↦
    Nat.not_le_of_lt (Nat.lt_of_le_of_lt hdigit hletter) (UInt32.le_iff_toNat_le.mp hle)
  show (c.isUpper || c.isLower) = false
  refine Bool.or_eq_false_iff.mpr ⟨decide_eq_false fun hupper ↦ ?_, ?_⟩
  · exact @hsmall 'A' (by decide) hupper.1
  · exact Bool.and_eq_false_iff.mpr (.inl (decide_eq_false (@hsmall 'a' (by decide))))

theorem digitValue_ten {c : Char} (h : c.isDigit) : digitValue 10 c = some (c.toNat - 48) := by
  obtain ⟨hlow, hhigh⟩ := isDigit_iff.mp h
  rw [digitValue, if_pos ⟨hlow, hhigh⟩, Option.filter_some, if_pos (decide_eq_true (by omega))]

/-- The value of decimal digits. -/
theorem digitsValue_ten {digits : List Char} (hne : digits ≠ [])
    (hdigits : ∀ c ∈ digits, c.isDigit) :
    digitsValue 10 digits = some (Nat.ofDigitChars 10 digits 0) := by
  have hfold {digits : List Char} (hdigits : ∀ c ∈ digits, c.isDigit) (value : ℕ) :
      digits.foldlM (fun value c ↦ (digitValue 10 c).map (value * 10 + ·)) value =
        some (Nat.ofDigitChars 10 digits value) := by
    induction digits generalizing value with
    | nil => rfl
    | cons c digits ih =>
      rw [List.forall_mem_cons] at hdigits
      rw [List.foldlM_cons, digitValue_ten hdigits.1, Option.map_some, Nat.ofDigitChars_cons,
        Nat.mul_comm 10]
      exact ih hdigits.2 _
  obtain ⟨c, rest, rfl⟩ := List.exists_cons_of_ne_nil hne
  exact hfold hdigits 0

/-- The texts of an integer: an optional sign, and decimal digits, at least one. -/
inductive IsInteger : List Char → ℤ → Prop
  | unsigned {digits : List Char} (hne : digits ≠ []) (hdigits : ∀ c ∈ digits, c.isDigit) :
      IsInteger digits (Nat.ofDigitChars 10 digits 0)
  | plus {digits : List Char} (hne : digits ≠ []) (hdigits : ∀ c ∈ digits, c.isDigit) :
      IsInteger ('+' :: digits) (Nat.ofDigitChars 10 digits 0)
  | minus {digits : List Char} (hne : digits ≠ []) (hdigits : ∀ c ∈ digits, c.isDigit) :
      IsInteger ('-' :: digits) (-(Nat.ofDigitChars 10 digits 0 : ℕ))

/-- The integers of sixty-four bits. -/
def FitsI64 (n : ℤ) : Prop := -2 ^ 63 ≤ n ∧ n < 2 ^ 63

instance (n : ℤ) : Decidable (FitsI64 n) := inferInstanceAs (Decidable (-2 ^ 63 ≤ n ∧ n < 2 ^ 63))

/-- The characters of integers. -/
def isIntegerChar (c : Char) : Bool := c.isDigit || c == '+' || c == '-'

theorem IsInteger.ne_nil {text : List Char} {n : ℤ} (h : IsInteger text n) : text ≠ [] := by
  cases h with
  | unsigned hne _ => exact hne
  | plus _ _ => exact List.cons_ne_nil _ _
  | minus _ _ => exact List.cons_ne_nil _ _

theorem IsInteger.isIntegerChar {text : List Char} {n : ℤ} (h : IsInteger text n) :
    ∀ c ∈ text, isIntegerChar c := by
  have hdigit {c : Char} (hc : c.isDigit) : Foundation.isIntegerChar c := by
    simp [Foundation.isIntegerChar, hc]
  cases h with
  | unsigned _ hdigits => exact fun c hc ↦ hdigit (hdigits c hc)
  | plus _ hdigits => exact List.forall_mem_cons.mpr ⟨by decide, fun c hc ↦ hdigit (hdigits c hc)⟩
  | minus _ hdigits => exact List.forall_mem_cons.mpr ⟨by decide, fun c hc ↦ hdigit (hdigits c hc)⟩

/-- No character of an integer is a letter. -/
theorem isAlpha_of_isIntegerChar {c : Char} (h : isIntegerChar c) : c.isAlpha = false := by
  simp only [isIntegerChar, Bool.or_eq_true, beq_iff_eq] at h
  rcases h with (h | rfl) | rfl
  · exact isAlpha_of_isDigit h
  · rfl
  · rfl

theorem lt_of_isIntegerChar {c : Char} (h : isIntegerChar c) : c.toNat < 128 := by
  simp only [isIntegerChar, Bool.or_eq_true, beq_iff_eq] at h
  rcases h with (h | rfl) | rfl
  · exact Nat.lt_of_le_of_lt (isDigit_iff.mp h).2 (by decide)
  · decide
  · decide

/-- An integer is read when it fits. -/
theorem parseI64_integer {text : List Char} {n : ℤ} (h : IsInteger text n) :
    parseI64 text = if FitsI64 n then some (.ofInt n) else none := by
  have hread (value : ℤ) : ((some value).filter fun i ↦ -2 ^ 63 ≤ i ∧ i < 2 ^ 63).map Int64.ofInt =
      if FitsI64 value then some (.ofInt value) else none := by
    rw [Option.filter_some]
    split_ifs with hsome hfits hfits
    · rfl
    · exact absurd (of_decide_eq_true hsome) hfits
    · exact absurd (decide_eq_true hfits) hsome
    · rfl
  cases h with
  | unsigned hne hdigits =>
    have hsign {c : Char} (hc : c ∈ text) : c ≠ '-' ∧ c ≠ '+' := by
      have hdigit := hdigits c hc
      constructor <;> (rintro rfl; exact absurd hdigit (by decide))
    simp only [parseI64]
    split
    · exact absurd rfl (hsign List.mem_cons_self).1
    · exact absurd rfl (hsign List.mem_cons_self).2
    · rw [digitsValue_ten hne hdigits]
      exact hread _
  | plus hne hdigits =>
    simp only [parseI64, digitsValue_ten hne hdigits]
    exact hread _
  | minus hne hdigits =>
    simp only [parseI64, digitsValue_ten hne hdigits]
    exact hread _

theorem mem_showI64 {i : Int64} {c : Char} (h : c ∈ showI64 i) : c.isDigit ∨ c = '-' := by
  have hdigit {c : Char} (hc : c ∈ Nat.toDigits 10 i.toInt.natAbs) : c.isDigit :=
    Nat.isDigit_of_mem_toDigits (by decide) (by decide) hc
  rw [showI64] at h
  split_ifs at h with hneg
  · rcases List.mem_cons.mp h with rfl | h
    · exact .inr rfl
    · exact .inl (hdigit h)
  · exact .inl (hdigit h)

/-- Digits have no leading zeros. -/
theorem eq_zero_of_head?_toDigits {n : ℕ} (h : (Nat.toDigits 10 n).head? = some '0') : n = 0 := by
  have hdigit : ∀ n < 10, n.digitChar = '0' → n = 0 := by decide
  induction n using Nat.strong_induction_on with
  | _ n ih =>
    by_cases hlt : n < 10
    · rw [Nat.toDigits_of_lt_base hlt, List.head?_cons, Option.some.injEq] at h
      exact hdigit n hlt h
    · rw [Nat.toDigits_of_base_le (by decide) (not_lt.mp hlt), List.head?_append,
        Option.or_of_isSome (by simp)] at h
      have hquotient := ih (n / 10) (by omega) h
      omega

theorem showI64_ne_nil (i : Int64) : showI64 i ≠ [] := by
  rw [showI64]
  split_ifs
  · exact List.cons_ne_nil _ _
  · exact Nat.toDigits_ne_nil

theorem isInteger_showI64 (i : Int64) : IsInteger (showI64 i) i.toInt := by
  have hdigits : ∀ c ∈ Nat.toDigits 10 i.toInt.natAbs, c.isDigit := fun c ↦
    Nat.isDigit_of_mem_toDigits (by decide) (by decide)
  rw [showI64]
  split_ifs with hneg
  · have hminus := IsInteger.minus Nat.toDigits_ne_nil hdigits
    rw [Nat.ofDigitChars_ten_toDigits, Int.ofNat_natAbs_of_nonpos (Int.le_of_lt hneg),
      Int.neg_neg] at hminus
    exact hminus
  · have hunsigned := IsInteger.unsigned Nat.toDigits_ne_nil hdigits
    rw [Nat.ofDigitChars_ten_toDigits, Int.natAbs_of_nonneg (Int.not_lt.mp hneg)] at hunsigned
    exact hunsigned

/-- Integers are read back. -/
theorem parseI64_showI64 (i : Int64) : parseI64 (showI64 i) = some i := by
  rw [parseI64_integer (isInteger_showI64 i), if_pos ⟨Int64.le_toInt i, Int64.toInt_lt i⟩,
    Int64.ofInt_toInt]

/-- A sequence with a character that is not a digit has no value. -/
theorem digitsValue_eq_none {digits : List Char} {c : Char} (hc : c ∈ digits)
    (hdigit : digitValue 10 c = none) : digitsValue 10 digits = none := by
  have hfold (value : ℕ) :
      digits.foldlM (fun value c ↦ (digitValue 10 c).map (value * 10 + ·)) value = none := by
    induction digits generalizing value with
    | nil => simp at hc
    | cons d digits ih =>
      rw [List.foldlM_cons]
      rcases List.mem_cons.mp hc with rfl | hc
      · rw [hdigit]
        rfl
      · cases digitValue 10 d with
        | none => rfl
        | some n => exact ih hc _
  cases digits with
  | nil => rfl
  | cons d digits => exact hfold 0

/-- A text with a character that is neither a digit nor a sign is not an integer. -/
theorem parseI64_eq_none {text : List Char} {c : Char} (h : c ∈ text)
    (hdigit : digitValue 10 c = none) (hsign : isIntegerChar c = false) : parseI64 text = none := by
  have hne : c ≠ '-' ∧ c ≠ '+' := by
    constructor <;> (rintro rfl; exact absurd hsign (by decide))
  have hnone {digits : List Char} (hdigits : c ∈ digits) : digitsValue 10 digits = none :=
    digitsValue_eq_none hdigits hdigit
  simp only [parseI64]
  split
  · rename_i rest
    rw [hnone ((List.mem_cons.mp h).resolve_left hne.1)]
    rfl
  · rename_i rest
    rw [hnone ((List.mem_cons.mp h).resolve_left hne.2)]
    rfl
  · rw [hnone h]
    rfl

end Propsim.Foundation
