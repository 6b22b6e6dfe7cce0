import Propsim.Interchange.EdnReader

/-!
# The JSON reader

`edn.rs`: the recursive-descent reader of JSON, in the same terms as the EDN reader. Strings with a
leading colon are read as keywords, and commas are skipped wherever an item or a key may stand. As
there, the depth of the stack is outside the model.
-/

set_option autoImplicit false
set_option relaxedAutoImplicit false

namespace Propsim.Interchange.Json

open Foundation

def skipWs (bytes : List UInt8) : List UInt8 := bytes.dropWhile isAsciiWhitespace

theorem length_skipWs_le (bytes : List UInt8) : (skipWs bytes).length ≤ bytes.length :=
  (List.dropWhile_sublist _).length_le

theorem length_lt_of_skipWs {bytes rest : List UInt8} {b : UInt8} (h : skipWs bytes = b :: rest) :
    rest.length < bytes.length := by
  have hle := length_skipWs_le bytes
  rw [h] at hle
  exact hle

/-- A character from its code point. -/
def charFromU32 (code : UInt32) : Option Char :=
  if code.toNat.isValidChar then some (.ofNat code.toNat) else none

/-- Reads an escaped code point after its `u`. -/
def parseUnicodeEscape (bytes : List UInt8) : Except Stop (Char × List UInt8) :=
  if bytes.length < 4 then fail "truncated \\u escape"
  else
    match sliceOrPanic bytes 4 with
    | .error e => .error e
    | .ok hex =>
      match parseU32 16 hex with
      | none => fail "invalid \\u escape"
      | some code =>
        match charFromU32 code with
        | none => fail "invalid code point"
        | some c => .ok (c, bytes.drop 4)

theorem length_lt_of_parseUnicodeEscape {bytes rest : List UInt8} {c : Char}
    (h : parseUnicodeEscape bytes = .ok (c, rest)) : rest.length < bytes.length := by
  unfold parseUnicodeEscape at h
  split_ifs at h with hlong
  · cases h
  · split at h
    · cases h
    · split at h
      · cases h
      · split at h
        · cases h
        · obtain ⟨rfl, rfl⟩ := Prod.mk.inj (Except.ok.inj h)
          rw [List.length_drop]
          omega

/-- Reads a string after its opening quote. -/
def parseString (bytes : List UInt8) (out : List Char) : Except Stop (List Char × List UInt8) :=
  match bytes with
  | [] => fail "unterminated JSON string"
  | b :: rest =>
    if b = '"'.toUInt8 then .ok (out, rest)
    else if b = '\\'.toUInt8 then
      match rest with
      | [] => fail "trailing JSON escape"
      | other :: rest =>
        if other = 'u'.toUInt8 then
          match _h : parseUnicodeEscape rest with
          | .error e => .error e
          | .ok (cp, rest) => parseString rest (out ++ [cp])
        else parseString rest (out ++ [escaped other])
    else
      match _h : nextChar (b :: rest) with
      | none => .error .panic
      | some (ch, rest) => parseString rest (out ++ [ch])
termination_by bytes.length
decreasing_by
  · have hlt := length_lt_of_parseUnicodeEscape _h
    simp only [List.length_cons]
    omega
  · simp only [List.length_cons]
    omega
  · exact length_lt_of_nextChar _h

theorem parseString_nil (out : List Char) :
    parseString [] out = fail "unterminated JSON string" := by
  rw [parseString.eq_def]

theorem parseString_trailing (out : List Char) :
    parseString ['\\'.toUInt8] out = fail "trailing JSON escape" := by
  rw [parseString.eq_def]
  exact (if_neg (by decide)).trans (if_pos rfl)

theorem parseString_quote (rest : List UInt8) (out : List Char) :
    parseString ('"'.toUInt8 :: rest) out = .ok (out, rest) := by
  rw [parseString.eq_def]
  exact if_pos rfl

theorem parseString_escape {other : UInt8} (hother : other ≠ 'u'.toUInt8) (rest : List UInt8)
    (out : List Char) :
    parseString ('\\'.toUInt8 :: other :: rest) out =
      parseString rest (out ++ [escaped other]) := by
  rw [parseString.eq_def]
  exact (if_neg (by decide)).trans ((if_pos rfl).trans (if_neg hother))

theorem parseString_unicode_eq (rest : List UInt8) (out : List Char) :
    parseString ('\\'.toUInt8 :: 'u'.toUInt8 :: rest) out =
      match parseUnicodeEscape rest with
      | .error e => .error e
      | .ok (cp, rest) => parseString rest (out ++ [cp]) := by
  rw [parseString.eq_def]
  simp only
  rw [if_neg (by decide), if_pos trivial, if_pos trivial]
  split
  · rename_i herror
    rw [herror]
  · rename_i hok
    rw [hok]

theorem parseString_char_eq {b : UInt8} {bytes : List UInt8} (hquote : b ≠ '"'.toUInt8)
    (hslash : b ≠ '\\'.toUInt8) (out : List Char) :
    parseString (b :: bytes) out =
      match nextChar (b :: bytes) with
      | none => .error .panic
      | some (ch, rest) => parseString rest (out ++ [ch]) := by
  rw [parseString.eq_def]
  simp only
  rw [if_neg hquote, if_neg hslash]
  split
  · rename_i hnone
    rw [hnone]
  · rename_i hsome
    rw [hsome]

theorem readsStrings : ReadsStrings parseString where
  quote := parseString_quote
  escape := parseString_escape
  char := parseString_char_eq

theorem length_lt_of_parseString {bytes rest : List UInt8} {out s : List Char}
    (h : parseString bytes out = .ok (s, rest)) : rest.length < bytes.length := by
  fun_induction parseString bytes out with
  | case1 => cases h
  | case2 out tail =>
    obtain ⟨rfl, rfl⟩ := Prod.mk.inj (Except.ok.inj h)
    exact Nat.lt_succ_self _
  | case3 => cases h
  | case4 => cases h
  | case5 out tail cp tail' hescape _ ih =>
    have hlt := length_lt_of_parseUnicodeEscape hescape
    have hrest := ih h
    simp only [List.length_cons]
    omega
  | case6 out other tail _ _ ih =>
    have hrest := ih h
    simp only [List.length_cons]
    omega
  | case7 => cases h
  | case8 out b tail _ _ ch tail' hnext ih => exact (ih h).trans (length_lt_of_nextChar hnext)

/-- Recovers a keyword from a string with a leading colon. -/
def strToValue (s : List Char) : Value :=
  match s with
  | ':' :: rest => .keyword (.ofList rest)
  | s => .str (.ofList s)

/-- Reads one of the literals. -/
def parseKeywordLiteral (bytes : List UInt8) : Except Stop (Value × List UInt8) :=
  if !isBoundary bytes then .error .panic
  else if utf8 "true".toList <+: bytes then .ok (.bool true, bytes.drop 4)
  else if utf8 "false".toList <+: bytes then .ok (.bool false, bytes.drop 5)
  else if utf8 "null".toList <+: bytes then .ok (.nil, bytes.drop 4)
  else fail "invalid JSON literal"

/-- The bytes of a number. -/
def isNumberByte (c : UInt8) : Bool :=
  ('0'.toUInt8 ≤ c && c ≤ '9'.toUInt8) || c == '-'.toUInt8 || c == '+'.toUInt8 ||
    c == '.'.toUInt8 || c == 'e'.toUInt8 || c == 'E'.toUInt8

variable (floats : FloatText)

/-- The value of a number token. -/
def numberValue (tok : List Char) : Except Stop Value :=
  match parseI64 tok with
  | some i => .ok (.int i)
  | none =>
    match floats.parse tok with
    | some f => .ok (.float f)
    | none => fail ("invalid JSON number `" ++ .ofList tok ++ "`")

/-- Reads a number. -/
def parseNumber (bytes : List UInt8) : Except Stop (Value × List UInt8) := do
  let tok ← sliceOrPanic bytes (bytes.takeWhile isNumberByte).length
  let value ← numberValue floats tok
  return (value, bytes.dropWhile isNumberByte)

mutual

/-- Reads a value. -/
def parseValue (bytes : List UInt8) : Except Stop (Value × List UInt8) :=
  match _h : skipWs bytes with
  | [] => fail "unexpected end of JSON"
  | b :: rest =>
    if b = '{'.toUInt8 then parseObject rest []
    else if b = '['.toUInt8 then parseArray rest []
    else if b = '"'.toUInt8 then
      (parseString rest []).map fun (s, rest) ↦ (strToValue s, rest)
    else if b = 't'.toUInt8 ∨ b = 'f'.toUInt8 ∨ b = 'n'.toUInt8 then
      parseKeywordLiteral (b :: rest)
    else parseNumber floats (b :: rest)
termination_by 2 * bytes.length
decreasing_by all_goals
  have hlt := length_lt_of_skipWs _h
  omega

/-- Reads the members of an object up to its closing brace. -/
def parseObject (bytes : List UInt8) (pairs : List (Value × Value)) :
    Except Stop (Value × List UInt8) :=
  match _h : skipWs bytes with
  | [] => fail "malformed JSON object"
  | b :: rest =>
    if b = '}'.toUInt8 then .ok (.map pairs, rest)
    else if b = ','.toUInt8 then parseObject rest pairs
    else if b = '"'.toUInt8 then
      match _hs : parseString rest [] with
      | .error e => .error e
      | .ok (key, mid) =>
        match _hc : skipWs mid with
        | [] => fail "expected `:` after JSON key"
        | c :: mid =>
          if c ≠ ':'.toUInt8 then fail "expected `:` after JSON key"
          else
            match parseValue mid with
            | .error e => .error e
            | .ok (val, mid') =>
              if _hv : mid'.length < bytes.length then
                parseObject mid' (pairs ++ [(strToValue key, val)])
              else .error .hang
    else fail "malformed JSON object"
termination_by 2 * bytes.length + 1
decreasing_by
  · have hlt := length_lt_of_skipWs _h
    omega
  · have hrest := length_lt_of_skipWs _h
    have hmid := length_lt_of_parseString _hs
    have hlt := length_lt_of_skipWs _hc
    omega
  · omega

/-- Reads the items of an array up to its closing bracket. -/
def parseArray (bytes : List UInt8) (items : List Value) : Except Stop (Value × List UInt8) :=
  match _h : skipWs bytes with
  | [] => fail "unterminated JSON array"
  | b :: rest =>
    if b = ']'.toUInt8 then .ok (.list items, rest)
    else if b = ','.toUInt8 then parseArray rest items
    else
      match parseValue (b :: rest) with
      | .error e => .error e
      | .ok (v, mid) =>
        if _hv : mid.length < bytes.length then parseArray mid (items ++ [v])
        else .error .hang
termination_by 2 * bytes.length + 1
decreasing_by
  · have hlt := length_lt_of_skipWs _h
    omega
  · have hlt := length_lt_of_skipWs _h
    simp only [List.length_cons]
    omega
  · omega

end

/-- Reads one value, which has to be the whole text up to white space. -/
def parse (s : List Char) : Except Stop Value :=
  match parseValue floats (skipWs (utf8 s)) with
  | .error e => .error e
  | .ok (v, rest) =>
    match skipWs rest with
    | [] => .ok v
    | b :: rest =>
      fail ("trailing JSON input at byte " ++ toString ((utf8 s).length - (b :: rest).length))

end Propsim.Interchange.Json
