import Propsim.Interchange.EdnBoundaries
import Propsim.Interchange.JsonGrammar

/-!
# Where the JSON reader panics

As for EDN, with one more way to leave the boundaries: the reader of an escaped code point slices
the four bytes after its `u`, which may end inside a character.
-/

set_option autoImplicit false
set_option relaxedAutoImplicit false

namespace Propsim.Interchange.Json

open Foundation

variable {floats : FloatText}

theorem isAsciiWhitespace_wide (b : UInt8) (hb : 0x80 ≤ b) : isAsciiWhitespace b = false := by
  revert b
  exact forall_byte (by decide +kernel)

theorem isNumberByte_wide (b : UInt8) (hb : 0x80 ≤ b) : isNumberByte b = false := by
  revert b
  exact forall_byte (by decide +kernel)

theorem isUtf8_skipWs {bytes : List UInt8} (h : IsUtf8 bytes) : IsUtf8 (skipWs bytes) :=
  (h.scan isAsciiWhitespace_wide).1

/-! ### Strings -/

/-- The contents of a string in which a character beyond ASCII stands behind a backslash, or four
bytes after an escaping `u` end inside a character. -/
inductive BadString : List UInt8 → Prop
  | here {b : UInt8} {rest : List UInt8} (hb : 0x80 ≤ b) : BadString ('\\'.toUInt8 :: b :: rest)
  | inside {rest : List UInt8} (hlength : 4 ≤ rest.length)
      (hboundary : isBoundary (rest.drop 4) = false) :
      BadString ('\\'.toUInt8 :: 'u'.toUInt8 :: rest)
  | escape {b : UInt8} {rest : List UInt8} (hu : b ≠ 'u'.toUInt8) (hb : b < 0x80)
      (h : BadString rest) : BadString ('\\'.toUInt8 :: b :: rest)
  | unicode {rest tail : List UInt8} {c : Char} (hu : parseUnicodeEscape rest = .ok (c, tail))
      (h : BadString tail) : BadString ('\\'.toUInt8 :: 'u'.toUInt8 :: rest)
  | char {b : UInt8} {bytes rest : List UInt8} {c : Char} (hquote : b ≠ '"'.toUInt8)
      (hslash : b ≠ '\\'.toUInt8) (hnext : nextChar (b :: bytes) = some (c, rest))
      (h : BadString rest) : BadString (b :: bytes)

/-- The four bytes of a code point are sliced where there are four. -/
theorem ends_parseUnicodeEscape {bytes : List UInt8} (h : IsUtf8 bytes) :
    Ends (4 ≤ bytes.length ∧ isBoundary (bytes.drop 4) = false) (parseUnicodeEscape bytes) := by
  unfold parseUnicodeEscape
  split_ifs with hshort
  · exact (ends_error _).congr (iff_of_false id fun hbad ↦ by omega)
  · have hlong : 4 ≤ bytes.length := not_lt.mp hshort
    cases hboundary : isBoundary (bytes.drop 4) with
    | false =>
      have hslice : slice bytes 4 = none := by
        rw [slice, hboundary]
        simp
      rw [sliceOrPanic, hslice]
      exact ends_panic.congr (iff_of_true trivial ⟨hlong, rfl⟩)
    | true =>
      obtain ⟨htail, hex, hslice⟩ := h.split hlong hboundary
      rw [sliceOrPanic_eq_ok.mpr hslice]
      simp only
      split
      · exact (ends_error _).congr (iff_of_false id (by simp))
      · split
        · exact (ends_error _).congr (iff_of_false id (by simp))
        · exact (ends_ok htail).congr (iff_of_false id (by simp))

theorem badString_unicode_iff (rest : List UInt8) :
    BadString ('\\'.toUInt8 :: 'u'.toUInt8 :: rest) ↔
      (4 ≤ rest.length ∧ isBoundary (rest.drop 4) = false) ∨
        ∃ c tail, parseUnicodeEscape rest = .ok (c, tail) ∧ BadString tail := by
  constructor
  · intro hbad
    cases hbad with
    | here hwide => exact absurd hwide (by decide)
    | inside hlength hboundary => exact .inl ⟨hlength, hboundary⟩
    | escape hu => exact absurd rfl hu
    | unicode hu hbad => exact .inr ⟨_, _, hu, hbad⟩
    | char _ hslash => exact absurd rfl hslash
  · rintro (⟨hlength, hboundary⟩ | ⟨c, tail, hu, hbad⟩)
    · exact .inside hlength hboundary
    · exact .unicode hu hbad

/-- The contents of a string decide alone how its reading ends. -/
theorem ends_parseString {bytes : List UInt8} (h : IsUtf8 bytes) (out : List Char) :
    Ends (BadString bytes) (parseString bytes out) := by
  fun_induction parseString bytes out with
  | case1 =>
    refine (ends_error _).congr (iff_of_false id fun hbad ↦ ?_)
    cases hbad
  | case2 out rest =>
    refine (ends_ok (h.tail (by decide))).congr (iff_of_false id fun hbad ↦ ?_)
    cases hbad with
    | char hquote => exact hquote rfl
  | case3 =>
    refine (ends_error _).congr (iff_of_false id fun hbad ↦ ?_)
    cases hbad with
    | char _ hslash => exact hslash rfl
  | case4 out rest e hu =>
    have hescape := ends_parseUnicodeEscape ((h.tail (by decide)).tail (by decide))
    refine (hescape.after (fun _ tail ↦ BadString tail) (fun e' he ↦ ?_)
      fun c tail hok ↦ ?_).congr (badString_unicode_iff rest).symm
    · rw [Except.error.inj (hu.symm.trans he)]
    · cases hu.symm.trans hok
  | case5 out rest c tail hu _ ih =>
    have hescape := ends_parseUnicodeEscape ((h.tail (by decide)).tail (by decide))
    refine (hescape.after (fun _ tail ↦ BadString tail) (fun e' he ↦ ?_)
      fun c' tail' hok htail ↦ ?_).congr (badString_unicode_iff rest).symm
    · cases hu.symm.trans he
    · obtain ⟨-, rfl⟩ := Prod.mk.inj (Except.ok.inj (hu.symm.trans hok))
      exact ih htail
  | case6 out other rest hu _ ih =>
    have hother := h.tail (by decide)
    by_cases hascii : other < 0x80
    · refine (ih (hother.tail hascii)).congr ⟨.escape hu hascii, fun hbad ↦ ?_⟩
      cases hbad with
      | here hwide => exact absurd (UInt8.lt_of_le_of_lt hwide hascii) (by decide)
      | inside => exact absurd rfl hu
      | escape _ _ hbad => exact hbad
      | unicode => exact absurd rfl hu
      | char _ hslash => exact absurd rfl hslash
    · -- The cursor is inside the character, and the next byte is read as one.
      have hwide : 0x80 ≤ other := UInt8.not_lt.mp hascii
      obtain ⟨b, tail, rfl, hb, hnone⟩ := hother.nextChar_eq_none hwide
      have hne (d : Char) (hd : d.toUInt8 < 0x80) : b ≠ d.toUInt8 := by
        rintro rfl
        exact absurd (UInt8.lt_of_le_of_lt hb hd) (by decide)
      rw [parseString_char_eq (hne '"' (by decide)) (hne '\\' (by decide)), hnone]
      exact ends_panic.congr (iff_of_true trivial (.here hwide))
  | case7 out b rest _ _ hnone =>
    obtain ⟨c, tail, hnext, -⟩ := h.exists_nextChar
    cases hnone.symm.trans hnext
  | case8 out b rest hquote hslash c tail hnext ih =>
    obtain ⟨c', tail', hnext', htail⟩ := h.exists_nextChar
    obtain ⟨-, rfl⟩ := Prod.mk.inj (Option.some.inj (hnext.symm.trans hnext'))
    refine (ih htail).congr ⟨.char hquote hslash hnext, fun hbad ↦ ?_⟩
    cases hbad with
    | here => exact absurd rfl hslash
    | inside => exact absurd rfl hslash
    | escape => exact absurd rfl hslash
    | unicode => exact absurd rfl hslash
    | char _ _ hnext' hbad =>
      obtain ⟨-, rfl⟩ := Prod.mk.inj (Option.some.inj (hnext.symm.trans hnext'))
      exact hbad

/-! ### Tokens -/

theorem ends_parseKeywordLiteral {bytes : List UInt8} (h : IsUtf8 bytes) :
    Ends False (parseKeywordLiteral bytes) := by
  have hboundary : isBoundary bytes := by
    obtain ⟨text, rfl⟩ := h
    simpa using @isBoundary_utf8 text [] rfl
  have hword {word : List Char} (hstart : utf8 word <+: bytes)
      (hascii : (utf8 word).all (· < 0x80)) : IsUtf8 (bytes.drop (utf8 word).length) := by
    obtain ⟨rest, rfl⟩ := hstart
    rw [List.drop_left]
    exact h.after_ascii (by simpa using hascii)
  unfold parseKeywordLiteral
  rw [hboundary]
  split_ifs with hinside htrue hfalse hnull
  · cases hinside
  · exact ends_ok (hword htrue (by decide))
  · exact ends_ok (hword hfalse (by decide))
  · exact ends_ok (hword hnull (by decide))
  · exact ends_error _

theorem numberValue_cases (tok : List Char) :
    (∃ v, numberValue floats tok = .ok v) ∨ ∃ e, numberValue floats tok = .error (.error e) := by
  unfold numberValue
  split
  · exact .inl ⟨_, rfl⟩
  · split
    · exact .inl ⟨_, rfl⟩
    · exact .inr ⟨_, rfl⟩

theorem ends_parseNumber {bytes : List UInt8} (h : IsUtf8 bytes) :
    Ends False (parseNumber floats bytes) := by
  obtain ⟨htail, token, htoken⟩ := h.scan isNumberByte_wide
  rw [parseNumber, sliceOrPanic_eq_ok.mpr htoken]
  obtain ⟨v, hv⟩ | ⟨e, he⟩ := @numberValue_cases floats token
  · simp only [bind, Except.bind, hv]
    exact ends_ok htail
  · simp only [bind, Except.bind, he]
    exact ends_error e

/-! ### Values -/

/-- A bad string is reached: everything before it is read, and it is in the value, in the items or
in the members that are read next. -/
inductive Escapes (floats : FloatText) : Form → List UInt8 → Prop
  | object {bytes rest : List UInt8} (h : skipWs bytes = '{'.toUInt8 :: rest)
      (hpairs : Escapes floats .pairs rest) : Escapes floats .value bytes
  | array {bytes rest : List UInt8} (h : skipWs bytes = '['.toUInt8 :: rest)
      (hitems : Escapes floats .items rest) : Escapes floats .value bytes
  | string {bytes rest : List UInt8} (h : skipWs bytes = '"'.toUInt8 :: rest)
      (hbad : BadString rest) : Escapes floats .value bytes
  | itemComma {bytes rest : List UInt8} (h : skipWs bytes = ','.toUInt8 :: rest)
      (hitems : Escapes floats .items rest) : Escapes floats .items bytes
  | item {bytes rest : List UInt8} {b : UInt8} (h : skipWs bytes = b :: rest)
      (hclose : b ≠ ']'.toUInt8) (hcomma : b ≠ ','.toUInt8)
      (hv : Escapes floats .value (b :: rest)) : Escapes floats .items bytes
  | laterItem {bytes rest mid : List UInt8} {b : UInt8} {v : Value} (h : skipWs bytes = b :: rest)
      (hclose : b ≠ ']'.toUInt8) (hcomma : b ≠ ','.toUInt8)
      (hv : Reads floats .value (b :: rest) v mid) (hitems : Escapes floats .items mid) :
      Escapes floats .items bytes
  | pairComma {bytes rest : List UInt8} (h : skipWs bytes = ','.toUInt8 :: rest)
      (hpairs : Escapes floats .pairs rest) : Escapes floats .pairs bytes
  | key {bytes rest : List UInt8} (h : skipWs bytes = '"'.toUInt8 :: rest)
      (hbad : BadString rest) : Escapes floats .pairs bytes
  | keyValue {bytes rest mid mid' : List UInt8} {key : List Char}
      (h : skipWs bytes = '"'.toUInt8 :: rest) (hk : parseString rest [] = .ok (key, mid))
      (hcolon : skipWs mid = ':'.toUInt8 :: mid') (hv : Escapes floats .value mid') :
      Escapes floats .pairs bytes
  | laterPair {bytes rest mid mid' mid'' : List UInt8} {key : List Char} {v : Value}
      (h : skipWs bytes = '"'.toUInt8 :: rest) (hk : parseString rest [] = .ok (key, mid))
      (hcolon : skipWs mid = ':'.toUInt8 :: mid') (hv : Reads floats .value mid' v mid'')
      (hpairs : Escapes floats .pairs mid'') : Escapes floats .pairs bytes

theorem not_escapes {form : Form} {bytes : List UInt8} (h : skipWs bytes = []) :
    ¬ Escapes floats form bytes := by
  intro hbad
  cases hbad with
  | object h' => cases h.symm.trans h'
  | array h' => cases h.symm.trans h'
  | string h' => cases h.symm.trans h'
  | itemComma h' => cases h.symm.trans h'
  | item h' => cases h.symm.trans h'
  | laterItem h' => cases h.symm.trans h'
  | pairComma h' => cases h.symm.trans h'
  | key h' => cases h.symm.trans h'
  | keyValue h' => cases h.symm.trans h'
  | laterPair h' => cases h.symm.trans h'

theorem escapes_value_iff {bytes rest : List UInt8} {b : UInt8} (h : skipWs bytes = b :: rest) :
    Escapes floats .value bytes ↔ b = '{'.toUInt8 ∧ Escapes floats .pairs rest ∨
      b = '['.toUInt8 ∧ Escapes floats .items rest ∨ b = '"'.toUInt8 ∧ BadString rest := by
  constructor
  · intro hbad
    cases hbad with
    | object h' hbad =>
      obtain ⟨rfl, rfl⟩ := List.cons.inj (h.symm.trans h')
      exact .inl ⟨rfl, hbad⟩
    | array h' hbad =>
      obtain ⟨rfl, rfl⟩ := List.cons.inj (h.symm.trans h')
      exact .inr (.inl ⟨rfl, hbad⟩)
    | string h' hbad =>
      obtain ⟨rfl, rfl⟩ := List.cons.inj (h.symm.trans h')
      exact .inr (.inr ⟨rfl, hbad⟩)
  · rintro (⟨rfl, hbad⟩ | ⟨rfl, hbad⟩ | ⟨rfl, hbad⟩)
    · exact .object h hbad
    · exact .array h hbad
    · exact .string h hbad

theorem escapes_items_iff {bytes rest : List UInt8} {b : UInt8} (h : skipWs bytes = b :: rest) :
    Escapes floats .items bytes ↔ b = ','.toUInt8 ∧ Escapes floats .items rest ∨
      b ≠ ']'.toUInt8 ∧ b ≠ ','.toUInt8 ∧ (Escapes floats .value (b :: rest) ∨
        ∃ v mid, Reads floats .value (b :: rest) v mid ∧ Escapes floats .items mid) := by
  constructor
  · intro hbad
    cases hbad with
    | itemComma h' hbad =>
      obtain ⟨rfl, rfl⟩ := List.cons.inj (h.symm.trans h')
      exact .inl ⟨rfl, hbad⟩
    | item h' hclose hcomma hv =>
      obtain ⟨rfl, rfl⟩ := List.cons.inj (h.symm.trans h')
      exact .inr ⟨hclose, hcomma, .inl hv⟩
    | laterItem h' hclose hcomma hv hitems =>
      obtain ⟨rfl, rfl⟩ := List.cons.inj (h.symm.trans h')
      exact .inr ⟨hclose, hcomma, .inr ⟨_, _, hv, hitems⟩⟩
  · rintro (⟨rfl, hbad⟩ | ⟨hclose, hcomma, hv | ⟨v, mid, hv, hitems⟩⟩)
    · exact .itemComma h hbad
    · exact .item h hclose hcomma hv
    · exact .laterItem h hclose hcomma hv hitems

theorem escapes_pairs_iff {bytes rest : List UInt8} {b : UInt8} (h : skipWs bytes = b :: rest) :
    Escapes floats .pairs bytes ↔ b = ','.toUInt8 ∧ Escapes floats .pairs rest ∨
      b = '"'.toUInt8 ∧ (BadString rest ∨ ∃ key mid, parseString rest [] = .ok (key, mid) ∧
        ∃ mid', skipWs mid = ':'.toUInt8 :: mid' ∧ (Escapes floats .value mid' ∨
          ∃ v mid'', Reads floats .value mid' v mid'' ∧ Escapes floats .pairs mid'')) := by
  constructor
  · intro hbad
    cases hbad with
    | pairComma h' hbad =>
      obtain ⟨rfl, rfl⟩ := List.cons.inj (h.symm.trans h')
      exact .inl ⟨rfl, hbad⟩
    | key h' hbad =>
      obtain ⟨rfl, rfl⟩ := List.cons.inj (h.symm.trans h')
      exact .inr ⟨rfl, .inl hbad⟩
    | keyValue h' hk hcolon hv =>
      obtain ⟨rfl, rfl⟩ := List.cons.inj (h.symm.trans h')
      exact .inr ⟨rfl, .inr ⟨_, _, hk, _, hcolon, .inl hv⟩⟩
    | laterPair h' hk hcolon hv hpairs =>
      obtain ⟨rfl, rfl⟩ := List.cons.inj (h.symm.trans h')
      exact .inr ⟨rfl, .inr ⟨_, _, hk, _, hcolon, .inr ⟨_, _, hv, hpairs⟩⟩⟩
  · rintro (⟨rfl, hbad⟩ | ⟨rfl, hbad | ⟨key, mid, hk, mid', hcolon, hv | ⟨v, mid'', hv, hpairs⟩⟩⟩)
    · exact .pairComma h hbad
    · exact .key h hbad
    · exact .keyValue h hk hcolon hv
    · exact .laterPair h hk hcolon hv hpairs

theorem reads_of_parseValue {bytes tail : List UInt8} {v : Value}
    (h : parseValue floats bytes = .ok (v, tail)) : Reads floats .value bytes v tail :=
  reads_iff.mpr h

/-- How reading ends at cursors of at most a length. -/
structure EndsUpTo (floats : FloatText) (n : ℕ) : Prop where
  value : ∀ bytes, bytes.length ≤ n → IsUtf8 bytes →
    Ends (Escapes floats .value bytes) (parseValue floats bytes)
  items : ∀ bytes before, bytes.length ≤ n → IsUtf8 bytes →
    Ends (Escapes floats .items bytes) (parseArray floats bytes before)
  pairs : ∀ bytes before, bytes.length ≤ n → IsUtf8 bytes →
    Ends (Escapes floats .pairs bytes) (parseObject floats bytes before)

theorem endsUpTo (floats : FloatText) (n : ℕ) : EndsUpTo floats n := by
  induction n using Nat.strong_induction_on with
  | _ n ih =>
    have hvalue : ∀ bytes, bytes.length ≤ n → IsUtf8 bytes →
        Ends (Escapes floats .value bytes) (parseValue floats bytes) := by
      intro bytes hle h
      cases hskip : skipWs bytes with
      | nil =>
        rw [parseValue_nil hskip]
        exact (ends_error _).congr (iff_of_false id (not_escapes hskip))
      | cons b rest =>
        have hlt := length_lt_of_skipWs hskip
        have hrest := ih rest.length (by omega)
        have hcursor : IsUtf8 (b :: rest) := hskip ▸ isUtf8_skipWs h
        rw [parseValue_eq hskip]
        split_ifs with hobject harray hstring hliteral
        · subst hobject
          refine (hrest.pairs rest [] le_rfl (hcursor.tail (by decide))).congr ?_
          simp +decide [escapes_value_iff hskip]
        · subst harray
          refine (hrest.items rest [] le_rfl (hcursor.tail (by decide))).congr ?_
          simp +decide [escapes_value_iff hskip]
        · subst hstring
          refine ((ends_parseString (hcursor.tail (by decide)) []).after (fun _ _ ↦ False)
            (fun e he ↦ by rw [he]; rfl) fun s tail hs htail ↦ ?_).congr ?_
          · rw [hs]
            exact ends_ok htail
          · simp +decide [escapes_value_iff hskip]
        · refine (ends_parseKeywordLiteral hcursor).congr ?_
          simp [escapes_value_iff hskip, hobject, harray, hstring]
        · refine (ends_parseNumber hcursor).congr ?_
          simp [escapes_value_iff hskip, hobject, harray, hstring]
    refine ⟨hvalue, fun bytes before hle h ↦ ?_, fun bytes before hle h ↦ ?_⟩
    · cases hskip : skipWs bytes with
      | nil =>
        rw [parseArray_nil hskip]
        exact (ends_error _).congr (iff_of_false id (not_escapes hskip))
      | cons b rest =>
        have hlt := length_lt_of_skipWs hskip
        have hcursor : IsUtf8 (b :: rest) := hskip ▸ isUtf8_skipWs h
        rw [parseArray_eq hskip]
        split_ifs with hclose hcomma
        · subst hclose
          refine (ends_ok (hcursor.tail (by decide))).congr ?_
          simp +decide [escapes_items_iff hskip]
        · subst hcomma
          have hlater := (ih rest.length (by omega)).items rest before le_rfl
            (hcursor.tail (by decide))
          refine hlater.congr ?_
          simp +decide [escapes_items_iff hskip]
        · have hitem := hvalue (b :: rest) (by rw [List.length_cons]; omega) hcursor
          refine (hitem.after (fun _ mid ↦ Escapes floats .items mid)
            (fun e he ↦ by rw [he]) fun v mid hv hmid ↦ ?_).congr ?_
          · have hadvance := (reads_of_parseValue hv).length_lt
            rw [List.length_cons] at hadvance
            rw [hv]
            simp only
            rw [if_pos (by omega)]
            exact (ih mid.length (by omega)).items mid _ le_rfl hmid
          · simp [escapes_items_iff hskip, hclose, hcomma, reads_iff, Parses]
    · cases hskip : skipWs bytes with
      | nil =>
        rw [parseObject_nil hskip]
        exact (ends_error _).congr (iff_of_false id (not_escapes hskip))
      | cons b rest =>
        have hlt := length_lt_of_skipWs hskip
        have hcursor : IsUtf8 (b :: rest) := hskip ▸ isUtf8_skipWs h
        rw [parseObject_eq hskip]
        split_ifs with hclose hcomma hquote
        · subst hclose
          refine (ends_ok (hcursor.tail (by decide))).congr ?_
          simp +decide [escapes_pairs_iff hskip]
        · subst hcomma
          have hlater := (ih rest.length (by omega)).pairs rest before le_rfl
            (hcursor.tail (by decide))
          refine hlater.congr ?_
          simp +decide [escapes_pairs_iff hskip]
        · subst hquote
          have hkey := ends_parseString (hcursor.tail (by decide)) []
          refine (hkey.after (fun _ mid ↦ ∃ mid', skipWs mid = ':'.toUInt8 :: mid' ∧
            (Escapes floats .value mid' ∨ ∃ v mid'', parseValue floats mid' = .ok (v, mid'') ∧
              Escapes floats .pairs mid''))
            (fun e he ↦ by rw [he]) fun key mid hk hmid ↦ ?_).congr ?_
          · have hadvance := length_lt_of_parseString hk
            rw [hk]
            simp only [parseMember]
            cases hcolon : skipWs mid with
            | nil => exact (ends_error _).congr (by simp)
            | cons c mid' =>
              have hmid' : IsUtf8 (c :: mid') := hcolon ▸ isUtf8_skipWs hmid
              have hadvance' := length_lt_of_skipWs hcolon
              simp only
              split_ifs with hc
              · exact (ends_error _).congr (by simp [hc])
              · obtain rfl := not_not.mp hc
                refine ((hvalue mid' (by omega) (hmid'.tail (by decide))).after
                  (fun _ mid'' ↦ Escapes floats .pairs mid'') (fun e he ↦ by rw [he])
                  fun v mid'' hv hmid'' ↦ ?_).congr ?_
                · have hlater := (reads_of_parseValue hv).length_lt
                  rw [hv]
                  simp only
                  rw [if_pos (by omega)]
                  exact (ih mid''.length (by omega)).pairs mid'' _ le_rfl hmid''
                · simp
          · simp +decide [escapes_pairs_iff hskip, reads_iff, Parses]
        · refine (ends_error _).congr ?_
          simp [escapes_pairs_iff hskip, hcomma, hquote]

/-- A text panics the reader exactly where it reaches a bad string, and no text hangs it. -/
theorem parse_panics_iff {s : List Char} :
    (parse floats s = .error .panic ↔ Escapes floats .value (skipWs (utf8 s))) ∧
      parse floats s ≠ .error .hang := by
  obtain ⟨hpanic, hhang, -⟩ := (endsUpTo floats (skipWs (utf8 s)).length).value _ le_rfl
    (isUtf8_skipWs (isUtf8_utf8 s))
  rw [parse_eq_wholeText, wholeText_eq_error_iff (by simp), ← hpanic]
  exact ⟨Iff.rfl, fun h ↦ hhang ((wholeText_eq_error_iff (by simp)).mp h)⟩

end Propsim.Interchange.Json
