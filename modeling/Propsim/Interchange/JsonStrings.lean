import Propsim.Foundation.JsonText
import Propsim.Interchange.JsonRoundTrip

/-!
# JSON strings

What the JSON reader makes of a string literal against what the literal denotes. The reader decodes
the escapes of a single code unit, but it has no case for `\b` and `\f`, which its last arm turns
into letters, and none for surrogate pairs, which it refuses: it returns what the literal denotes
exactly when none of these escapes is in it (`parseString_denotes_iff`).
-/

set_option autoImplicit false
set_option relaxedAutoImplicit false

namespace Propsim.Interchange.Json

open Foundation JsonText

/-- No escape of the text is `\b`, `\f` or the first half of a surrogate pair. -/
def Decodable (text : List Char) : Prop :=
  ∀ e ∈ escapes text, e ≠ ['b'] ∧ e ≠ ['f'] ∧ ¬ IsHighSurrogate (hexValue (e.drop 1))

/-! ### Code points -/

theorem digitValue_hex {c : Char} (h : IsHexDigit c) :
    digitValue 16 c = some (hexDigitValue c) ∧ hexDigitValue c < 16 := by
  rw [digitValue, hexDigitValue]
  by_cases hdigit : c.isDigit
  · obtain ⟨hlow, hhigh⟩ := isDigit_iff.mp hdigit
    rw [if_pos hdigit, if_pos ⟨hlow, hhigh⟩, Option.filter_some, if_pos (decide_eq_true (by omega))]
    exact ⟨rfl, by omega⟩
  · have hdecimal : ¬ (48 ≤ c.toNat ∧ c.toNat ≤ 57) := fun hrange ↦ hdigit (isDigit_iff.mpr hrange)
    rw [if_neg hdigit, if_neg hdecimal]
    rcases h with h | ⟨hlow, hhigh⟩ | ⟨hlow, hhigh⟩
    · exact absurd h hdigit
    · have hrange : 97 ≤ c.toNat ∧ c.toNat ≤ 102 := ⟨hlow, hhigh⟩
      rw [if_pos hlow, if_pos hrange, Option.filter_some, if_pos (decide_eq_true (by omega))]
      exact ⟨rfl, by omega⟩
    · have hrange : 65 ≤ c.toNat ∧ c.toNat ≤ 70 := ⟨hlow, hhigh⟩
      have hupper : ¬ 'a' ≤ c := fun hle ↦ by
        have hle' : 97 ≤ c.toNat := hle
        omega
      rw [if_neg hupper, if_neg (by omega), if_pos hrange, Option.filter_some,
        if_pos (decide_eq_true (by omega))]
      exact ⟨rfl, by omega⟩

theorem lt_of_isHexDigit {c : Char} (h : IsHexDigit c) : c.toNat < 128 := by
  rcases h with hdigit | ⟨-, hhigh⟩ | ⟨-, hhigh⟩
  · exact Nat.lt_of_le_of_lt (isDigit_iff.mp hdigit).2 (by decide)
  · exact Nat.lt_of_le_of_lt (show c.toNat ≤ 102 from hhigh) (by decide)
  · exact Nat.lt_of_le_of_lt (show c.toNat ≤ 70 from hhigh) (by decide)

/-- Four hexadecimal digits are read as their number. -/
theorem parseU32_hex {hex : List Char} (h : IsHex4 hex) :
    parseU32 16 hex = some (.ofNat (hexValue hex)) ∧ hexValue hex < 2 ^ 16 := by
  obtain ⟨a, b, c, d, rfl⟩ := h.exists_eq
  obtain ⟨ha, hb, hc, hd⟩ : IsHexDigit a ∧ IsHexDigit b ∧ IsHexDigit c ∧ IsHexDigit d := by
    simpa using h.2
  have hvalue : digitsValue 16 [a, b, c, d] = some (hexValue [a, b, c, d]) := by
    simp [digitsValue, hexValue, digitValue_hex ha, digitValue_hex hb, digitValue_hex hc,
      digitValue_hex hd]
  have hlt : hexValue [a, b, c, d] < 2 ^ 16 := by
    have hlta := (digitValue_hex ha).2
    have hltb := (digitValue_hex hb).2
    have hltc := (digitValue_hex hc).2
    have hltd := (digitValue_hex hd).2
    simp only [hexValue, List.foldl_cons, List.foldl_nil]
    omega
  refine ⟨?_, hlt⟩
  have hplus : a ≠ '+' := by
    rintro rfl
    exact absurd ha (by decide)
  simp only [parseU32]
  split
  · rename_i heq
    exact absurd (List.cons.inj heq).1 hplus
  · rw [hvalue, Option.filter_some, if_pos (decide_eq_true (by omega))]
    rfl

/-- A code point of four digits is a character unless it is a surrogate. -/
theorem charFromU32_hex {n : ℕ} (h : n < 2 ^ 16) : charFromU32 (.ofNat n) =
    if IsHighSurrogate n ∨ IsLowSurrogate n then none else some (Char.ofNat n) := by
  have hnat : (UInt32.ofNat n).toNat = n := by
    rw [UInt32.toNat_ofNat']
    omega
  rw [charFromU32, hnat]
  by_cases hsurrogate : IsHighSurrogate n ∨ IsLowSurrogate n
  · rw [if_pos hsurrogate, if_neg]
    simp only [Nat.isValidChar, IsHighSurrogate, IsLowSurrogate] at hsurrogate ⊢
    omega
  · rw [if_neg hsurrogate, if_pos]
    simp only [Nat.isValidChar, IsHighSurrogate, IsLowSurrogate] at hsurrogate ⊢
    omega

/-! ### Escapes -/

theorem parseUnicodeEscape_hex {hex : List Char} (h : IsHex4 hex) {rest : List UInt8}
    (hrest : isBoundary rest) : parseUnicodeEscape (utf8 hex ++ rest) =
      if IsHighSurrogate (hexValue hex) ∨ IsLowSurrogate (hexValue hex) then
        fail "invalid code point"
      else .ok (.ofNat (hexValue hex), rest) := by
  obtain ⟨hread, hlt⟩ := parseU32_hex h
  have hlength : (utf8 hex).length = 4 := by
    obtain ⟨a, b, c, d, rfl⟩ := h.exists_eq
    obtain ⟨ha, hb, hc, hd⟩ : IsHexDigit a ∧ IsHexDigit b ∧ IsHexDigit c ∧ IsHexDigit d := by
      simpa using h.2
    rw [utf8_cons_ascii (lt_of_isHexDigit ha), utf8_cons_ascii (lt_of_isHexDigit hb),
      utf8_cons_ascii (lt_of_isHexDigit hc), utf8_cons_ascii (lt_of_isHexDigit hd)]
    rfl
  have hslice : sliceOrPanic (utf8 hex ++ rest) 4 = .ok hex := by
    rw [← hlength]
    exact sliceOrPanic_eq_ok.mpr (slice_utf8 hrest)
  have hdrop : (utf8 hex ++ rest).drop 4 = rest := by rw [← hlength, List.drop_left]
  rw [parseUnicodeEscape, if_neg (by rw [List.length_append, hlength]; omega), hslice]
  simp only
  rw [hread]
  simp only
  rw [charFromU32_hex hlt, hdrop]
  split_ifs <;> rfl

/-- The escape of a code unit. -/
theorem parseString_unicode {hex : List Char} (h : IsHex4 hex) {rest : List UInt8}
    (hrest : isBoundary rest) (out : List Char) :
    parseString ('\\'.toUInt8 :: 'u'.toUInt8 :: (utf8 hex ++ rest)) out =
      if IsHighSurrogate (hexValue hex) ∨ IsLowSurrogate (hexValue hex) then
        fail "invalid code point"
      else parseString rest (out ++ [.ofNat (hexValue hex)]) := by
  rw [parseString_unicode_eq, parseUnicodeEscape_hex h hrest]
  split_ifs with hsurrogate
  · rfl
  · rfl

/-- A two-character escape. Only the letters of `\b` and `\f` are not known. -/
theorem escaped_shortEscape {other c : Char} (h : (other, c) ∈ shortEscapes) :
    other.toNat < 128 ∧ other ≠ 'u' ∧ other.toUInt8 ≠ 'u'.toUInt8 ∧
      (escaped other.toUInt8 = c ↔ other ≠ 'b' ∧ other ≠ 'f') := by
  simp only [shortEscapes, List.mem_cons, Prod.mk.injEq, List.not_mem_nil, or_false] at h
  rcases h with ⟨rfl, rfl⟩ | ⟨rfl, rfl⟩ | ⟨rfl, rfl⟩ | ⟨rfl, rfl⟩ | ⟨rfl, rfl⟩ | ⟨rfl, rfl⟩ |
    ⟨rfl, rfl⟩ | ⟨rfl, rfl⟩ <;> decide

theorem decodable_nil : Decodable [] := fun _ he ↦ absurd he List.not_mem_nil

theorem decodable_unescaped {c : Char} (hc : c ≠ '\\') {text : List Char} :
    Decodable (c :: text) ↔ Decodable text := by
  rw [Decodable, escapes_unescaped hc]
  rfl

theorem decodable_escaped {c : Char} (hc : c ≠ 'u') {text : List Char} :
    Decodable ('\\' :: c :: text) ↔ (c ≠ 'b' ∧ c ≠ 'f') ∧ Decodable text := by
  rw [Decodable, escapes_escaped hc, List.forall_mem_cons]
  refine and_congr_left fun _ ↦ ?_
  simp [hexValue, IsHighSurrogate]

theorem decodable_unicode {hex : List Char} (h : IsHex4 hex) {text : List Char} :
    Decodable ('\\' :: 'u' :: (hex ++ text)) ↔
      ¬ IsHighSurrogate (hexValue hex) ∧ Decodable text := by
  rw [Decodable, escapes_unicode h, List.forall_mem_cons]
  refine and_congr_left fun _ ↦ ?_
  simp

/-! ### Literals -/

/-- Behind what was collected, the reader adds what the text denotes exactly when every escape is
one that it decodes. -/
theorem parseString_denotes {text s : List Char} (h : Denotes text s) (rest : List UInt8)
    {out out' : List Char} (hlength : out.length = out'.length) :
    parseString (utf8 text ++ '"'.toUInt8 :: rest) out = .ok (out' ++ s, rest) ↔
      out = out' ∧ Decodable text := by
  have hboundary (text : List Char) : isBoundary (utf8 text ++ '"'.toUInt8 :: rest) :=
    isBoundary_utf8 rfl
  have hgrow {c : Char} (out' s : List Char) : out' ++ c :: s = out' ++ [c] ++ s := by
    rw [List.append_assoc, List.singleton_append]
  induction h generalizing out out' with
  | nil =>
    rw [utf8_nil, List.nil_append, parseString_quote, List.append_nil]
    simp [decodable_nil]
  | @unescaped c text s _ hquote hslash _ ih =>
    have hnext := @ih (out ++ [c]) (out' ++ [c]) (by simpa using hlength)
    rw [utf8_cons, List.append_assoc, readsStrings.char_append hquote hslash, hgrow out' s]
    refine hnext.trans ?_
    rw [decodable_unescaped hslash, List.append_left_inj]
  | @escaped other c text s hescape _ ih =>
    obtain ⟨hascii, hu, hbyte, hknown⟩ := escaped_shortEscape hescape
    have hnext := @ih (out ++ [escaped other.toUInt8]) (out' ++ [c]) (by simpa using hlength)
    rw [utf8_cons_ascii (by decide), utf8_cons_ascii hascii, List.cons_append, List.cons_append,
      parseString_escape hbyte, hgrow out' s]
    refine hnext.trans ?_
    rw [decodable_escaped hu, ← hknown]
    constructor
    · rintro ⟨heq, hdecodable⟩
      obtain ⟨rfl, hc⟩ := List.append_inj heq hlength
      exact ⟨rfl, List.singleton_inj.mp hc, hdecodable⟩
    · rintro ⟨rfl, hc, hdecodable⟩
      exact ⟨by rw [hc], hdecodable⟩
  | @unicode hex text s hhex hhigh hlow _ ih =>
    have hnext := @ih (out ++ [.ofNat (hexValue hex)]) (out' ++ [.ofNat (hexValue hex)])
      (by simpa using hlength)
    rw [utf8_cons_ascii (by decide), utf8_cons_ascii (by decide), utf8_append, List.cons_append,
      List.cons_append, List.append_assoc, parseString_unicode hhex (hboundary text),
      if_neg (not_or.mpr ⟨hhigh, hlow⟩), hgrow out' s]
    refine hnext.trans ?_
    rw [decodable_unicode hhex, List.append_left_inj, and_iff_right hhigh]
  | @surrogates high low text s hhex hhex' hhigh hlow _ _ =>
    rw [utf8_cons_ascii (by decide), utf8_cons_ascii (by decide), utf8_append, List.cons_append,
      List.cons_append, List.append_assoc, parseString_unicode hhex (hboundary _),
      if_pos (.inl hhigh), decodable_unicode hhex]
    constructor
    · intro heq
      cases heq
    · rintro ⟨-, hnot, -⟩
      exact absurd hhigh hnot

/-- The reader returns what a string literal denotes exactly when no escape in it is `\b`, `\f` or
half of a surrogate pair. -/
theorem parseString_denotes_iff (text s : List Char) (rest : List UInt8) (h : Denotes text s) :
    parseString (utf8 text ++ '"'.toUInt8 :: rest) [] = .ok (s, rest) ↔ Decodable text := by
  have hread := @parseString_denotes text s h rest [] [] rfl
  rw [List.nil_append] at hread
  exact hread.trans (and_iff_right rfl)

theorem isHex4_of_all {hex : List Char} (hlength : hex.length = 4)
    (hhex : hex.all fun c ↦ decide (IsHexDigit c)) : IsHex4 hex :=
  ⟨hlength, fun c hc ↦ of_decide_eq_true (List.all_eq_true.mp hhex c hc)⟩

/-- An accented letter, a line feed and the letter again, escaped. -/
theorem denotes_accented : Denotes "é\\n\\u00E9".toList "é\né".toList := by
  have hunicode := @Denotes.unicode "00E9".toList [] [] (isHex4_of_all rfl (by decide)) (by decide)
    (by decide) .nil
  exact .unescaped (by decide) (by decide) (by decide) (.escaped (by decide) hunicode)

theorem accented_denotes_iff :
    parseString (utf8 "é\\n\\u00E9".toList ++ ['"'.toUInt8]) [] = .ok ("é\né".toList, []) ↔
      Decodable "é\\n\\u00E9".toList :=
  parseString_denotes_iff _ _ [] denotes_accented

/-- A backspace is read as a letter, and a character above `U+FFFF` is refused. -/
theorem backspace_not_denoted :
    Denotes ['\\', 'b'] ['\x08'] ∧
      parseString (utf8 ['\\', 'b'] ++ ['"'.toUInt8]) [] = .ok (['b'], []) ∧
    Denotes "\\uD83D\\uDE00".toList ['😀'] ∧
      parseString (utf8 "\\uD83D\\uDE00".toList ++ ['"'.toUInt8]) [] =
        fail "invalid code point" ∧
    ¬ ∀ text s rest, Denotes text s →
      parseString (utf8 text ++ '"'.toUInt8 :: rest) [] = .ok (s, rest) := by
  have hbackspace : Denotes ['\\', 'b'] ['\x08'] := .escaped (by decide) .nil
  have hread : parseString (utf8 ['\\', 'b'] ++ ['"'.toUInt8]) [] = .ok (['b'], []) := by
    rw [utf8_cons_ascii (by decide), utf8_cons_ascii (by decide), List.cons_append,
      List.cons_append, parseString_escape (by decide), utf8_nil, List.nil_append,
      parseString_quote]
    rfl
  have hhigh : IsHex4 "D83D".toList := isHex4_of_all rfl (by decide)
  have hlow : IsHex4 "DE00".toList := isHex4_of_all rfl (by decide)
  have hpair := @Denotes.surrogates "D83D".toList "DE00".toList [] [] hhigh hlow (by decide)
    (by decide) .nil
  have hrefused := @parseString_unicode "D83D".toList hhigh
    (utf8 "\\uDE00".toList ++ ['"'.toUInt8]) rfl []
  rw [if_pos (by decide)] at hrefused
  refine ⟨hbackspace, hread, hpair, hrefused, fun hall ↦ ?_⟩
  have hdenoted := hall _ _ [] hbackspace
  rw [hread] at hdenoted
  exact absurd (Prod.mk.inj (Except.ok.inj hdenoted)).1 (by decide)

end Propsim.Interchange.Json
