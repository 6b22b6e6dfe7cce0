import Mathlib.Data.List.DropRight
import Mathlib.Order.Nat
import Propsim.Foundation.Utf8
import Propsim.Interchange.Writer

/-!
# The EDN reader

`edn.rs`: the recursive-descent reader of EDN. Its cursor is the list of the bytes that are left.
Slicing between cursors that are not character boundaries is the outcome `panic`, and a loop turn
that does not move the cursor, after which the loop would never end, is the outcome `hang`. The
reader recurses once for each level of nesting, and the depth of its stack is outside the model: on
a text nested some twenty thousand levels deep the program runs out of stack, where the reader here
goes on.
-/

set_option autoImplicit false
set_option relaxedAutoImplicit false

namespace Propsim.Interchange

open Foundation

/-- An error of reading a history. -/
structure ParseError where
  msg : String
  deriving DecidableEq, Repr

/-- How reading ends without a value. -/
inductive Stop
  | error (e : ParseError)
  | panic
  | hang
  deriving DecidableEq

/-- A failure with a message. -/
def fail {α : Type} (msg : String) : Except Stop α := .error (.error ⟨msg⟩)

section WholeText

variable {skip : List UInt8 → List UInt8} {trailing : List UInt8 → String}
  {read : Except Stop (Value × List UInt8)}

/-- A value that has to be a whole text: only what is skipped may stand after it. -/
def wholeText (skip : List UInt8 → List UInt8) (trailing : List UInt8 → String) :
    Except Stop (Value × List UInt8) → Except Stop Value
  | .error e => .error e
  | .ok (v, rest) =>
    match skip rest with
    | [] => .ok v
    | b :: rest => fail (trailing (b :: rest))

theorem wholeText_eq_ok_iff {v : Value} :
    wholeText skip trailing read = .ok v ↔ ∃ tail, read = .ok (v, tail) ∧ skip tail = [] := by
  cases read with
  | error e => simp [wholeText]
  | ok result =>
    obtain ⟨v', rest⟩ := result
    rw [wholeText]
    constructor
    · intro h
      split at h
      · rename_i hnil
        obtain rfl := Except.ok.inj h
        exact ⟨rest, rfl, hnil⟩
      · cases h
    · rintro ⟨tail, hread, hnil⟩
      obtain ⟨rfl, rfl⟩ := Prod.mk.inj (Except.ok.inj hread)
      rw [hnil]

/-- What stops the reading of a value stops that of the text, and nothing new does but an error. -/
theorem wholeText_eq_error_iff {stop : Stop} (hstop : ∀ e, stop ≠ .error e) :
    wholeText skip trailing read = .error stop ↔ read = .error stop := by
  cases read with
  | error e => rw [wholeText, Except.error.injEq, Except.error.injEq]
  | ok result =>
    obtain ⟨v, rest⟩ := result
    rw [wholeText]
    refine iff_of_false ?_ (by simp)
    split
    · simp
    · exact fun h ↦ hstop _ (Except.error.inj h).symm

end WholeText

/-- `u8::is_ascii_whitespace`. -/
def isAsciiWhitespace (b : UInt8) : Bool :=
  b == ' '.toUInt8 || b == '\t'.toUInt8 || b == '\n'.toUInt8 || b == '\x0c'.toUInt8 ||
    b == '\r'.toUInt8

/-- The text of a slice. -/
def sliceOrPanic (bytes : List UInt8) (count : ℕ) : Except Stop (List Char) :=
  match slice bytes count with
  | none => .error .panic
  | some text => .ok text

/-- The character that an escape stands for. -/
def escaped (other : UInt8) : Char :=
  if other = 'n'.toUInt8 then '\n'
  else if other = 'r'.toUInt8 then '\r'
  else if other = 't'.toUInt8 then '\t'
  else .ofUInt8 other

/-- What both readers of strings do at a quote, at an escape and at a character. Only one of them
reads `\u` as any other escape. -/
structure ReadsStrings (read : List UInt8 → List Char → Except Stop (List Char × List UInt8)) :
    Prop where
  quote (rest : List UInt8) (out : List Char) : read ('"'.toUInt8 :: rest) out = .ok (out, rest)
  escape {other : UInt8} (hother : other ≠ 'u'.toUInt8) (rest : List UInt8) (out : List Char) :
    read ('\\'.toUInt8 :: other :: rest) out = read rest (out ++ [escaped other])
  char {b : UInt8} {bytes : List UInt8} (hquote : b ≠ '"'.toUInt8) (hslash : b ≠ '\\'.toUInt8)
    (out : List Char) :
    read (b :: bytes) out =
      match nextChar (b :: bytes) with
      | none => .error .panic
      | some (ch, rest) => read rest (out ++ [ch])

namespace ReadsStrings

variable {read : List UInt8 → List Char → Except Stop (List Char × List UInt8)}

theorem char_append (h : ReadsStrings read) {c : Char} (hquote : c ≠ '"') (hslash : c ≠ '\\')
    (rest : List UInt8) (out : List Char) :
    read (String.utf8EncodeChar c ++ rest) out = read rest (out ++ [c]) := by
  obtain ⟨b, bs, heq, hhead⟩ := exists_utf8EncodeChar_eq_cons c
  have hnext := nextChar_utf8EncodeChar c rest
  rw [heq, List.cons_append] at hnext ⊢
  rw [h.char (fun hb ↦ hquote (hhead _ (by decide) hb))
    (fun hb ↦ hslash (hhead _ (by decide) hb)), hnext]

/-- An escaped character is read back. -/
theorem escapeChar_append (h : ReadsStrings read) (c : Char) (rest : List UInt8)
    (out : List Char) : read (utf8 (escapeChar c) ++ rest) out = read rest (out ++ [c]) := by
  have hescape {other : Char} (hascii : other.toNat < 128) (hu : other.toUInt8 ≠ 'u'.toUInt8)
      (hother : escaped other.toUInt8 = c) :
      read (utf8 ['\\', other] ++ rest) out = read rest (out ++ [c]) := by
    rw [utf8_cons_ascii (by decide), utf8_cons_ascii hascii, utf8_nil, ← hother]
    exact h.escape hu _ _
  unfold escapeChar
  split_ifs with hquote hslash hn hr ht
  · exact hescape (by decide) (by decide) (by rw [hquote]; decide)
  · exact hescape (by decide) (by decide) (by rw [hslash]; decide)
  · exact hescape (by decide) (by decide) (by rw [hn]; decide)
  · exact hescape (by decide) (by decide) (by rw [hr]; decide)
  · exact hescape (by decide) (by decide) (by rw [ht]; decide)
  · rw [utf8_cons, utf8_nil, List.append_nil]
    exact h.char_append hquote hslash rest out

/-- An escaped string is read back up to its closing quote. -/
theorem pushEscaped_append (h : ReadsStrings read) (s : List Char) (rest : List UInt8)
    (out : List Char) :
    read (utf8 (pushEscaped s) ++ '"'.toUInt8 :: rest) out = .ok (out ++ s, rest) := by
  induction s generalizing out with
  | nil =>
    rw [List.append_nil]
    exact h.quote rest out
  | cons c s ih =>
    have hcons : pushEscaped (c :: s) = escapeChar c ++ pushEscaped s := rfl
    rw [hcons, utf8_append, List.append_assoc, h.escapeChar_append, ih, List.append_assoc,
      List.singleton_append]

end ReadsStrings

theorem sliceOrPanic_eq_ok {bytes : List UInt8} {count : ℕ} {text : List Char} :
    sliceOrPanic bytes count = .ok text ↔ slice bytes count = some text := by
  unfold sliceOrPanic
  split <;> rename_i h <;> simp [h]

/-- The text of a token has the bytes of the token. -/
theorem utf8_of_token {p : UInt8 → Bool} {bytes : List UInt8} {text : List Char}
    (h : sliceOrPanic bytes (bytes.takeWhile p).length = .ok text) :
    utf8 text = bytes.takeWhile p := by
  rw [utf8_of_slice (sliceOrPanic_eq_ok.mp h)]
  exact (List.prefix_iff_eq_take.mp (List.takeWhile_prefix p)).symm

/-- A token ends before the first byte that cannot be in it. -/
theorem takeWhile_token {p : UInt8 → Bool} {token rest : List UInt8}
    (htoken : ∀ b ∈ token, p b = true) (hrest : ∀ b ∈ rest.head?, p b = false) :
    (token ++ rest).takeWhile p = token ∧ (token ++ rest).dropWhile p = rest := by
  rw [List.takeWhile_append_of_pos htoken, List.dropWhile_append_of_pos htoken]
  cases rest with
  | nil => simp
  | cons b rest =>
    have hb := hrest b rfl
    simp [hb]

/-- A token that is not empty is passed over. -/
theorem length_dropWhile_lt {α : Type*} {p : α → Bool} {l : List α} (h : l.takeWhile p ≠ []) :
    (l.dropWhile p).length < l.length := by
  have hsum := congrArg List.length (List.takeWhile_append_dropWhile (p := p) (l := l))
  have hpos := List.length_pos_of_ne_nil h
  rw [List.length_append] at hsum
  omega

namespace Edn

/-- The bytes that end a keyword or an atom. -/
def isDelim (c : UInt8) : Bool :=
  isAsciiWhitespace c || c == ','.toUInt8 || c == '{'.toUInt8 || c == '}'.toUInt8 ||
    c == '['.toUInt8 || c == ']'.toUInt8 || c == '('.toUInt8 || c == ')'.toUInt8 ||
    c == '"'.toUInt8 || c == ';'.toUInt8

/-- Skips white space, commas and line comments. The flag tells whether a comment is skipped. -/
def skipFrom : Bool → List UInt8 → List UInt8
  | _, [] => []
  | false, b :: rest =>
    if isAsciiWhitespace b || b == ','.toUInt8 then skipFrom false rest
    else if b == ';'.toUInt8 then skipFrom true rest
    else b :: rest
  | true, b :: rest => skipFrom (b != '\n'.toUInt8) rest

def skipWs (bytes : List UInt8) : List UInt8 := skipFrom false bytes

theorem length_skipFrom_le (comment : Bool) (bytes : List UInt8) :
    (skipFrom comment bytes).length ≤ bytes.length := by
  induction bytes generalizing comment with
  | nil => cases comment <;> exact le_rfl
  | cons b rest ih =>
    cases comment with
    | false =>
      rw [skipFrom]
      split_ifs
      · exact (ih _).trans (Nat.le_succ _)
      · exact (ih _).trans (Nat.le_succ _)
      · exact le_rfl
    | true => exact (ih _).trans (Nat.le_succ _)

theorem length_lt_of_skipWs {bytes rest : List UInt8} {b : UInt8} (h : skipWs bytes = b :: rest) :
    rest.length < bytes.length := by
  have hle := length_skipFrom_le false bytes
  rw [← skipWs, h] at hle
  exact hle

/-- Reads a string after its opening quote. -/
def parseString (bytes : List UInt8) (out : List Char) : Except Stop (List Char × List UInt8) :=
  match bytes with
  | [] => fail "unterminated string"
  | b :: rest =>
    if b = '"'.toUInt8 then .ok (out, rest)
    else if b = '\\'.toUInt8 then
      match rest with
      | [] => fail "trailing escape"
      | other :: rest => parseString rest (out ++ [escaped other])
    else
      match _h : nextChar (b :: rest) with
      | none => .error .panic
      | some (ch, rest) => parseString rest (out ++ [ch])
termination_by bytes.length
decreasing_by
  · simp only [List.length_cons]
    omega
  · exact length_lt_of_nextChar _h

theorem parseString_nil (out : List Char) :
    parseString [] out = fail "unterminated string" := by
  rw [parseString.eq_def]

theorem parseString_trailing (out : List Char) :
    parseString ['\\'.toUInt8] out = fail "trailing escape" := by
  rw [parseString.eq_def]
  exact (if_neg (by decide)).trans (if_pos rfl)

theorem parseString_quote (rest : List UInt8) (out : List Char) :
    parseString ('"'.toUInt8 :: rest) out = .ok (out, rest) := by
  rw [parseString.eq_def]
  exact if_pos rfl

theorem parseString_escape (other : UInt8) (rest : List UInt8) (out : List Char) :
    parseString ('\\'.toUInt8 :: other :: rest) out =
      parseString rest (out ++ [escaped other]) := by
  rw [parseString.eq_def]
  exact (if_neg (by decide)).trans (if_pos rfl)

theorem parseString_char_eq {b : UInt8} {bytes : List UInt8} (hquote : b ≠ '"'.toUInt8)
    (hslash : b ≠ '\\'.toUInt8) (out : List Char) :
    parseString (b :: bytes) out =
      match nextChar (b :: bytes) with
      | none => .error .panic
      | some (ch, rest) => parseString rest (out ++ [ch]) := by
  rw [parseString.eq_def]
  simp only
  rw [if_neg hquote, if_neg hslash]
  split
  · rename_i hnone
    rw [hnone]
  · rename_i hsome
    rw [hsome]

theorem readsStrings : ReadsStrings parseString where
  quote := parseString_quote
  escape _ := parseString_escape _
  char := parseString_char_eq

/-- Reads a keyword after its colon. -/
def parseKeyword (bytes : List UInt8) : Except Stop (Value × List UInt8) :=
  let token := bytes.takeWhile (!isDelim ·)
  if token = [] then fail "empty keyword"
  else (sliceOrPanic bytes token.length).map fun k ↦
    (.keyword (.ofList k), bytes.dropWhile (!isDelim ·))

variable (floats : FloatText)

/-- The value of a token. -/
def atomValue (tok : List Char) : Except Stop Value :=
  if tok = "nil".toList then .ok .nil
  else if tok = "true".toList then .ok (.bool true)
  else if tok = "false".toList then .ok (.bool false)
  else
    match parseI64 tok with
    | some i => .ok (.int i)
    | none =>
      match floats.parse (tok.rdropWhile fun c ↦ c = 'M' ∨ c = 'N') with
      | some f => .ok (.float f)
      | none => fail ("unrecognized token `" ++ .ofList tok ++ "`")

variable {floats} in
/-- A token without letters is no word, and nothing is trimmed from it. -/
theorem atomValue_number {tok : List Char} (h : ∀ c ∈ tok, c.isAlpha = false) :
    atomValue floats tok =
      match parseI64 tok with
      | some i => .ok (.int i)
      | none =>
        match floats.parse tok with
        | some f => .ok (.float f)
        | none => fail ("unrecognized token `" ++ .ofList tok ++ "`") := by
  have hword {word : List Char} {c : Char} (hc : c ∈ word) (hword : c.isAlpha = true) :
      tok ≠ word := by
    rintro rfl
    rw [h c hc] at hword
    cases hword
  have htrim : tok.rdropWhile (fun c ↦ c = 'M' ∨ c = 'N') = tok := by
    refine List.rdropWhile_eq_self_iff.mpr fun hne ↦ ?_
    have hlast := h _ (List.getLast_mem hne)
    intro hsuffix
    rcases of_decide_eq_true hsuffix with heq | heq <;>
    · rw [heq] at hlast
      exact absurd hlast (by decide)
  rw [atomValue, if_neg (hword (c := 'n') (by decide) (by decide)),
    if_neg (hword (c := 't') (by decide) (by decide)),
    if_neg (hword (c := 'f') (by decide) (by decide)), htrim]

/-- Reads any other token. -/
def parseAtom (bytes : List UInt8) : Except Stop (Value × List UInt8) := do
  let tok ← sliceOrPanic bytes (bytes.takeWhile (!isDelim ·)).length
  let value ← atomValue floats tok
  return (value, bytes.dropWhile (!isDelim ·))

mutual

/-- Reads a value. -/
def parseValue (bytes : List UInt8) : Except Stop (Value × List UInt8) :=
  match _h : skipWs bytes with
  | [] => fail "unexpected end of input"
  | b :: rest =>
    if b = '{'.toUInt8 then parseMap rest []
    else if b = '['.toUInt8 then parseSeq ']'.toUInt8 rest []
    else if b = '('.toUInt8 then parseSeq ')'.toUInt8 rest []
    else if b = '"'.toUInt8 then
      (parseString rest []).map fun (s, rest) ↦ (.str (.ofList s), rest)
    else if b = ':'.toUInt8 then parseKeyword rest
    else parseAtom floats (b :: rest)
termination_by 2 * bytes.length
decreasing_by all_goals
  have hlt := length_lt_of_skipWs _h
  omega

/-- Reads the pairs of a map up to its closing brace. -/
def parseMap (bytes : List UInt8) (pairs : List (Value × Value)) :
    Except Stop (Value × List UInt8) :=
  match _h : skipWs bytes with
  | [] => fail "unterminated map"
  | b :: rest =>
    if b = '}'.toUInt8 then .ok (.map pairs, rest)
    else
      match parseValue (b :: rest) with
      | .error e => .error e
      | .ok (k, mid) =>
        if _hk : mid.length < bytes.length then
          match parseValue mid with
          | .error e => .error e
          | .ok (v, mid') =>
            if _hv : mid'.length < bytes.length then parseMap mid' (pairs ++ [(k, v)])
            else .error .hang
        else .error .hang
termination_by 2 * bytes.length + 1
decreasing_by
  · have hlt := length_lt_of_skipWs _h
    simp only [List.length_cons]
    omega
  · omega
  · omega

/-- Reads the items of a vector or a list up to its closing byte. -/
def parseSeq (close : UInt8) (bytes : List UInt8) (items : List Value) :
    Except Stop (Value × List UInt8) :=
  match _h : skipWs bytes with
  | [] => fail "unterminated list/vector"
  | b :: rest =>
    if b = close then .ok (.list items, rest)
    else
      match parseValue (b :: rest) with
      | .error e => .error e
      | .ok (v, mid) =>
        if _hv : mid.length < bytes.length then parseSeq close mid (items ++ [v])
        else .error .hang
termination_by 2 * bytes.length + 1
decreasing_by
  · have hlt := length_lt_of_skipWs _h
    simp only [List.length_cons]
    omega
  · omega

end

/-- Reads one value, which has to be the whole text up to white space. -/
def parse (s : List Char) : Except Stop Value :=
  match parseValue floats (skipWs (utf8 s)) with
  | .error e => .error e
  | .ok (v, rest) =>
    match skipWs rest with
    | [] => .ok v
    | b :: rest =>
      fail ("trailing input at byte " ++ toString ((utf8 s).length - (b :: rest).length) ++ " ")

end Edn

end Propsim.Interchange
