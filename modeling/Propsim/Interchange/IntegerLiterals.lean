import Propsim.Interchange.JsonRoundTrip

/-!
# Integer literals

An integer literal is an optional sign with decimal digits behind it, and EDN has a form with the
suffix `N`. A literal that `i64` cannot hold, and every literal with the suffix, falls through to
the floats: reading is faithful on the other literals and on no more (`isFaithful_readLiteral_iff`).
-/

set_option autoImplicit false
set_option relaxedAutoImplicit false

namespace Propsim.Interchange

open Foundation

/-- The forms of integer literals: EDN, EDN with the suffix of big integers, and JSON. -/
inductive LiteralForm
  | edn
  | bigint
  | json
  deriving DecidableEq

/-- Reads a literal in one of the forms. -/
def readLiteral (floats : FloatText) : LiteralForm → List Char → Except Stop Value
  | .edn, text => Edn.parse floats text
  | .bigint, text => Edn.parse floats (text ++ ['N'])
  | .json, text => Json.parse floats text

/-- Reading ends with the integer itself or with an error. -/
def IsFaithful (n : ℤ) (outcome : Except Stop Value) : Prop :=
  (∃ i : Int64, outcome = .ok (.int i) ∧ i.toInt = n) ∨ ∃ e, outcome = .error (.error e)

/-- `f64::from_str` reads every decimal integer, of any length and with either sign. -/
def FloatText.ReadsIntegers (floats : FloatText) : Prop :=
  ∀ text n, IsInteger text n → (floats.parse text).isSome

variable {floats : FloatText}

theorem isFaithful_int {n : ℤ} (h : FitsI64 n) : IsFaithful n (.ok (.int (.ofInt n))) :=
  .inl ⟨_, rfl, Int64.toInt_ofInt_of_le h.1 h.2⟩

theorem not_isFaithful_float (n : ℤ) (f : Binary64) : ¬ IsFaithful n (.ok (.float f)) := by
  rintro (⟨i, heq, -⟩ | ⟨e, heq⟩)
  · cases heq
  · cases heq

/-! ### The tokens of literals -/

namespace Edn

/-- A text that is one token is the value of the token. -/
theorem parse_token {tok : List Char} (hne : tok ≠ []) (hcolon : tok.head? ≠ some ':')
    (htok : ∀ b ∈ utf8 tok, isDelim b = false) : parse floats tok = atomValue floats tok := by
  obtain ⟨b, bytes, hcursor, hopens, hskip⟩ := exists_token_eq_cons hne hcolon htok
  have hatom := @parseAtom_token floats tok htok [] (by rintro b ⟨⟩)
  simp only [opensForm, not_or] at hopens
  rw [List.append_nil, hcursor] at hatom
  rw [parse, hcursor, hskip, parseValue_eq (hskip _), if_neg hopens.1, if_neg hopens.2.1,
    if_neg hopens.2.2.1, if_neg hopens.2.2.2.1, if_neg hopens.2.2.2.2, hatom]
  cases atomValue floats tok with
  | error e => rfl
  | ok v => rfl

end Edn

namespace Json

/-- A text that is one number is the value of the number. -/
theorem parse_number {tok : List Char} (hne : tok ≠ []) (htok : ∀ c ∈ tok, isIntegerChar c) :
    parse floats tok = numberValue floats tok := by
  have hbyte : ∀ c ∈ tok, isNumberByte c.toUInt8 ∧ isAsciiWhitespace c.toUInt8 = false ∧
      ¬ opensForm c.toUInt8 := fun c hc ↦ by
    have hchar := htok c hc
    have hascii := lt_of_isIntegerChar hchar
    revert hchar
    exact forall_ascii (P := fun c ↦ isIntegerChar c → isNumberByte c.toUInt8 ∧
      isAsciiWhitespace c.toUInt8 = false ∧ ¬ opensForm c.toUInt8) (by decide +kernel) hascii
  have hbytes : ∀ b ∈ utf8 tok, isNumberByte b = true := fun b hb ↦ by
    obtain ⟨c, hc, hb⟩ := List.mem_flatMap.mp hb
    rw [utf8EncodeChar_ascii (lt_of_isIntegerChar (htok c hc)), List.mem_singleton] at hb
    exact hb ▸ (hbyte c hc).1
  have hnumber := @parseNumber_token floats tok hbytes [] rfl (by rintro b ⟨⟩)
  obtain ⟨c, cs, rfl⟩ := List.exists_cons_of_ne_nil hne
  obtain ⟨-, hspace, hopens⟩ := hbyte c List.mem_cons_self
  have hcursor := utf8_cons_ascii (lt_of_isIntegerChar (htok c List.mem_cons_self)) cs
  simp only [opensForm, not_or] at hopens
  rw [List.append_nil, hcursor] at hnumber
  rw [parse, hcursor, skipWs_head hspace, parseValue_eq (skipWs_head hspace _), if_neg hopens.1,
    if_neg hopens.2.1, if_neg hopens.2.2.1, if_neg hopens.2.2.2, hnumber]
  cases numberValue floats (c :: cs) with
  | error e => rfl
  | ok v => rfl

end Json

/-! ### The values of literals -/

/-- What the fallback to the floats returns, with its message when there is no float. -/
def floatOr (floats : FloatText) (text : List Char) (msg : String) : Except Stop Value :=
  match floats.parse text with
  | some f => .ok (.float f)
  | none => fail msg

theorem atomValue_integer {text : List Char} {n : ℤ} (h : IsInteger text n) :
    Edn.atomValue floats text = if FitsI64 n then .ok (.int (.ofInt n))
      else floatOr floats text ("unrecognized token `" ++ .ofList text ++ "`") := by
  rw [Edn.atomValue_number fun c hc ↦ isAlpha_of_isIntegerChar (h.isIntegerChar c hc),
    parseI64_integer h]
  by_cases hfits : FitsI64 n
  · rw [if_pos hfits, if_pos hfits]
  · rw [if_neg hfits, if_neg hfits]
    rfl

theorem numberValue_integer {text : List Char} {n : ℤ} (h : IsInteger text n) :
    Json.numberValue floats text = if FitsI64 n then .ok (.int (.ofInt n))
      else floatOr floats text ("invalid JSON number `" ++ .ofList text ++ "`") := by
  rw [Json.numberValue, parseI64_integer h]
  by_cases hfits : FitsI64 n
  · rw [if_pos hfits, if_pos hfits]
  · rw [if_neg hfits, if_neg hfits]
    rfl

/-- The suffix keeps a literal from the integers, and it is trimmed before the floats. -/
theorem atomValue_bigint {text : List Char} {n : ℤ} (h : IsInteger text n) :
    Edn.atomValue floats (text ++ ['N']) =
      floatOr floats text ("unrecognized token `" ++ .ofList (text ++ ['N']) ++ "`") := by
  have hsuffix : 'N' ∈ text ++ ['N'] := List.mem_append_right _ List.mem_cons_self
  have hword {word : List Char} (hword : 'N' ∉ word) : text ++ ['N'] ≠ word := by
    rintro rfl
    exact hword hsuffix
  have hinteger : parseI64 (text ++ ['N']) = none :=
    parseI64_eq_none hsuffix (by decide) (by decide)
  have htrim : (text ++ ['N']).rdropWhile (fun c ↦ c = 'M' ∨ c = 'N') = text := by
    rw [List.rdropWhile_concat_pos _ _ _ (by decide)]
    refine List.rdropWhile_eq_self_iff.mpr fun hne hlast ↦ ?_
    have hchar := isAlpha_of_isIntegerChar (h.isIntegerChar _ (List.getLast_mem hne))
    rcases of_decide_eq_true hlast with heq | heq <;>
    · rw [heq] at hchar
      cases hchar
  rw [Edn.atomValue, if_neg (hword (by decide)), if_neg (hword (by decide)),
    if_neg (hword (by decide)), hinteger, htrim]
  rfl

theorem not_isDelim_of_isIntegerChar {c : Char} (h : isIntegerChar c ∨ c = 'N') :
    ∀ b ∈ String.utf8EncodeChar c, Edn.isDelim b = false := by
  have hascii : c.toNat < 128 := by
    rcases h with h | rfl
    · exact lt_of_isIntegerChar h
    · decide
  rw [utf8EncodeChar_ascii hascii, List.forall_mem_singleton]
  revert h
  exact forall_ascii (P := fun c ↦ isIntegerChar c ∨ c = 'N' → Edn.isDelim c.toUInt8 = false)
    (by decide +kernel) hascii

/-- A literal, with or without the suffix, is one token. -/
theorem literal_token {tok : List Char} (h : ∀ c ∈ tok, isIntegerChar c ∨ c = 'N') :
    tok.head? ≠ some ':' ∧ ∀ b ∈ utf8 tok, Edn.isDelim b = false := by
  refine ⟨fun hhead ↦ ?_, fun b hb ↦ ?_⟩
  · rcases h _ (List.mem_of_mem_head? hhead) with hcolon | hcolon <;> cases hcolon
  · obtain ⟨c, hc, hb⟩ := List.mem_flatMap.mp hb
    exact not_isDelim_of_isIntegerChar (h c hc) b hb

/-- What reading a literal returns. -/
theorem readLiteral_integer (form : LiteralForm) {text : List Char} {n : ℤ} (h : IsInteger text n) :
    ∃ msg, readLiteral floats form text =
      if form ≠ .bigint ∧ FitsI64 n then .ok (.int (.ofInt n)) else floatOr floats text msg := by
  have htoken {suffix : List Char} (hsuffix : ∀ c ∈ suffix, c = 'N') :
      Edn.parse floats (text ++ suffix) = Edn.atomValue floats (text ++ suffix) := by
    obtain ⟨hcolon, htok⟩ := @literal_token (text ++ suffix) <|
      List.forall_mem_append.mpr ⟨fun c hc ↦ .inl (h.isIntegerChar c hc),
        fun c hc ↦ .inr (hsuffix c hc)⟩
    exact Edn.parse_token (List.append_ne_nil_of_left_ne_nil h.ne_nil _) hcolon htok
  cases form with
  | edn =>
    have hparse := @htoken [] (by rintro c ⟨⟩)
    rw [List.append_nil, atomValue_integer h] at hparse
    exact ⟨_, by simpa [readLiteral] using hparse⟩
  | bigint =>
    have hparse := @htoken ['N'] fun c ↦ List.mem_singleton.mp
    rw [atomValue_bigint h] at hparse
    exact ⟨_, by simpa [readLiteral] using hparse⟩
  | json =>
    have hparse := @Json.parse_number floats text h.ne_nil h.isIntegerChar
    rw [numberValue_integer h] at hparse
    exact ⟨_, by simpa [readLiteral] using hparse⟩

/-- Reading an integer literal is faithful exactly when the literal has no suffix and `i64` holds
its value. -/
theorem isFaithful_readLiteral_iff (floats : FloatText) (hfloats : floats.ReadsIntegers)
    (form : LiteralForm) (text : List Char) (n : ℤ) (h : IsInteger text n) :
    IsFaithful n (readLiteral floats form text) ↔ form ≠ .bigint ∧ FitsI64 n := by
  obtain ⟨msg, hread⟩ := @readLiteral_integer floats form text n h
  rw [hread]
  by_cases hint : form ≠ .bigint ∧ FitsI64 n
  · rw [if_pos hint]
    exact ⟨fun _ ↦ hint, fun _ ↦ isFaithful_int hint.2⟩
  · obtain ⟨f, hf⟩ := Option.isSome_iff_exists.mp (hfloats text n h)
    rw [if_neg hint, floatOr, hf]
    exact ⟨fun hfaithful ↦ absurd hfaithful (not_isFaithful_float n f),
      fun hfits ↦ absurd hfits hint⟩

/-- Float texts that read integers as the standard library does. -/
def integerFloats : FloatText where
  display := sampleFloats.display
  parse text := (sampleFloats.parse text).or (match text with
    | '-' :: digits => (digitsValue 10 digits).map fun n ↦ (Binary64.ofNat n).neg
    | '+' :: digits => (digitsValue 10 digits).map .ofNat
    | digits => (digitsValue 10 digits).map .ofNat)
  decimal := sampleFloats.decimal
  inverse f h := by rw [sampleFloats.inverse f h, Option.some_or]
  pointZero f h hpoint := by rw [sampleFloats.pointZero f h hpoint, Option.some_or]
  parse_nil := rfl

theorem integerFloats_readsIntegers : integerFloats.ReadsIntegers := by
  intro text n h
  rw [integerFloats, Option.isSome_or, Bool.or_eq_true]
  refine .inr ?_
  cases h with
  | unsigned hne hdigits =>
    split
    · exact absurd (hdigits '-' List.mem_cons_self) (by decide)
    · exact absurd (hdigits '+' List.mem_cons_self) (by decide)
    · rw [digitsValue_ten hne hdigits]
      rfl
  | plus hne hdigits => simp only [digitsValue_ten hne hdigits, Option.map_some, Option.isSome_some]
  | minus hne hdigits =>
    simp only [digitsValue_ten hne hdigits, Option.map_some, Option.isSome_some]

/-- The first integer that `i64` does not hold. -/
def bigLiteral : List Char := "9223372036854775808".toList

theorem isInteger_bigLiteral : IsInteger bigLiteral (2 ^ 63) :=
  .unsigned (by decide) (List.all_eq_true.mp (by decide))

theorem isInteger_five : IsInteger ['5'] 5 :=
  .unsigned (by decide) (List.all_eq_true.mp (by decide))

theorem bigLiteral_isFaithful_iff :
    (IsFaithful (2 ^ 63) (readLiteral integerFloats .edn bigLiteral) ↔
      LiteralForm.edn ≠ .bigint ∧ FitsI64 (2 ^ 63)) ∧
    (IsFaithful 5 (readLiteral integerFloats .bigint ['5']) ↔
      LiteralForm.bigint ≠ .bigint ∧ FitsI64 5) :=
  ⟨isFaithful_readLiteral_iff integerFloats integerFloats_readsIntegers .edn bigLiteral _
      isInteger_bigLiteral,
    isFaithful_readLiteral_iff integerFloats integerFloats_readsIntegers .bigint ['5'] _
      isInteger_five⟩

/-- The literals `9223372036854775808` and `5N` are read as floats. -/
theorem bigLiteral_not_isFaithful :
    readLiteral integerFloats .edn bigLiteral = .ok (.float ⟨0x43E0000000000000⟩) ∧
      readLiteral integerFloats .json bigLiteral = .ok (.float ⟨0x43E0000000000000⟩) ∧
      readLiteral integerFloats .bigint ['5'] = .ok (.float ⟨0x4014000000000000⟩) ∧
      ¬ ∀ form text n, IsInteger text n → IsFaithful n (readLiteral integerFloats form text) := by
  have hfloat (form : LiteralForm) (hform : form ≠ .bigint) :
      readLiteral integerFloats form bigLiteral = .ok (.float ⟨0x43E0000000000000⟩) := by
    obtain ⟨msg, hread⟩ := @readLiteral_integer integerFloats form _ _ isInteger_bigLiteral
    rw [hread, if_neg fun hint ↦ absurd hint.2 (by decide), floatOr,
      show integerFloats.parse bigLiteral = some ⟨0x43E0000000000000⟩ by decide +kernel]
  refine ⟨hfloat .edn (by decide), hfloat .json (by decide), ?_, fun hall ↦ ?_⟩
  · obtain ⟨msg, hread⟩ := @readLiteral_integer integerFloats .bigint _ _ isInteger_five
    rw [hread, if_neg fun hint ↦ hint.1 rfl, floatOr,
      show integerFloats.parse ['5'] = some ⟨0x4014000000000000⟩ by decide +kernel]
  · have hfaithful := hall .edn _ _ isInteger_bigLiteral
    rw [hfloat .edn (by decide)] at hfaithful
    exact not_isFaithful_float _ _ hfaithful

end Propsim.Interchange
