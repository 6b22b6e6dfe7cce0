import Propsim.Interchange.EdnProgress
import Propsim.Interchange.JsonBoundaries
import Propsim.Interchange.JsonRoundTrip

/-!
# The JSON reader advances

The loops of the JSON reader, turn by turn as `edn.rs` has them and with no check that a turn moves
the cursor. They end on every text as those of the EDN reader do.
-/

set_option autoImplicit false
set_option relaxedAutoImplicit false

namespace Propsim.Interchange

open Foundation

namespace Json

/-! ### The loops of the JSON reader -/

/-- A turn of `skip_ws`. -/
def skipTurn : List UInt8 → Option (Turn (List UInt8) (List UInt8))
  | [] => some (.done [])
  | b :: rest => if isAsciiWhitespace b then some (.again rest) else some (.done (b :: rest))

def skipWithin (fuel : ℕ) (bytes : List UInt8) : Option (List UInt8) :=
  runLoop skipTurn fuel bytes

/-- A turn of `parse_string`. -/
def stringTurn : List UInt8 × List Char →
    Option (Turn (List UInt8 × List Char) (Except Stop (List Char × List UInt8)))
  | ([], _) => some (.done (fail "unterminated JSON string"))
  | (b :: rest, out) =>
    if b = '"'.toUInt8 then some (.done (.ok (out, rest)))
    else if b = '\\'.toUInt8 then
      match rest with
      | [] => some (.done (fail "trailing JSON escape"))
      | other :: rest =>
        if other = 'u'.toUInt8 then
          match parseUnicodeEscape rest with
          | .error e => some (.done (.error e))
          | .ok (cp, rest) => some (.again (rest, out ++ [cp]))
        else some (.again (rest, out ++ [escaped other]))
    else
      match nextChar (b :: rest) with
      | none => some (.done (.error .panic))
      | some (ch, rest) => some (.again (rest, out ++ [ch]))

section Loops

variable (fuel : ℕ) (value : List UInt8 → Option (Except Stop (Value × List UInt8)))

/-- What a turn of `parse_object` does after a key, with a reader of values. -/
def memberTurn (pairs : List (Value × Value)) (key : List Char) (mid : List UInt8) :
    Option (Turn (List UInt8 × List (Value × Value)) (Except Stop (Value × List UInt8))) := do
  match ← skipWithin fuel mid with
  | [] => some (.done (fail "expected `:` after JSON key"))
  | c :: mid =>
    if c ≠ ':'.toUInt8 then some (.done (fail "expected `:` after JSON key"))
    else
      match ← value mid with
      | .error e => some (.done (.error e))
      | .ok (val, mid) => some (.again (mid, pairs ++ [(strToValue key, val)]))

/-- A turn of `parse_object`, with a reader of values. -/
def objectTurn : List UInt8 × List (Value × Value) →
    Option (Turn (List UInt8 × List (Value × Value)) (Except Stop (Value × List UInt8)))
  | (bytes, pairs) => do
    match ← skipWithin fuel bytes with
    | [] => some (.done (fail "malformed JSON object"))
    | b :: rest =>
      if b = '}'.toUInt8 then some (.done (.ok (.map pairs, rest)))
      else if b = ','.toUInt8 then some (.again (rest, pairs))
      else if b = '"'.toUInt8 then
        match ← runLoop stringTurn fuel (rest, []) with
        | .error e => some (.done (.error e))
        | .ok (key, mid) => memberTurn fuel value pairs key mid
      else some (.done (fail "malformed JSON object"))

/-- A turn of `parse_array`, with a reader of values. -/
def arrayTurn : List UInt8 × List Value →
    Option (Turn (List UInt8 × List Value) (Except Stop (Value × List UInt8)))
  | (bytes, items) => do
    match ← skipWithin fuel bytes with
    | [] => some (.done (fail "unterminated JSON array"))
    | b :: rest =>
      if b = ']'.toUInt8 then some (.done (.ok (.list items, rest)))
      else if b = ','.toUInt8 then some (.again (rest, items))
      else
        match ← value (b :: rest) with
        | .error e => some (.done (.error e))
        | .ok (v, mid) => some (.again (mid, items ++ [v]))

end Loops

/-- `parse_value`, with a bound on the turns of its loops and on the depth of the value. -/
def valueWithin (floats : FloatText) :
    ℕ → List UInt8 → Option (Except Stop (Value × List UInt8))
  | 0, _ => none
  | fuel + 1, bytes => do
    match ← skipWithin (fuel + 1) bytes with
    | [] => some (fail "unexpected end of JSON")
    | b :: rest =>
      if b = '{'.toUInt8 then runLoop (objectTurn fuel (valueWithin floats fuel)) fuel (rest, [])
      else if b = '['.toUInt8 then
        runLoop (arrayTurn fuel (valueWithin floats fuel)) fuel (rest, [])
      else if b = '"'.toUInt8 then
        (runLoop stringTurn fuel (rest, [])).map fun read ↦
          read.map fun (s, rest) ↦ (strToValue s, rest)
      else if opensLiteral b then some (parseKeywordLiteral (b :: rest))
      else some (parseNumber floats (b :: rest))

/-- `parse_json`, with a bound on the turns of its loops and on the depth of the value. -/
def parseWithin (floats : FloatText) (fuel : ℕ) (s : List Char) : Option (Except Stop Value) := do
  match ← valueWithin floats fuel (← skipWithin fuel (utf8 s)) with
  | .error e => some (.error e)
  | .ok (v, rest) =>
    match ← skipWithin fuel rest with
    | [] => some (.ok v)
    | b :: rest =>
      some (fail ("trailing JSON input at byte " ++
        toString ((utf8 s).length - (b :: rest).length)))

/-! ### Turns of the JSON reader -/

theorem advances_skipTurn : Advances List.length skipTurn := by
  intro state next h
  cases state with
  | nil => cases h
  | cons b rest =>
    rw [skipTurn] at h
    split_ifs at h
    · cases h
      exact Nat.lt_succ_self _
    · cases h

theorem length_le_of_skipWithin {fuel : ℕ} {bytes rest : List UInt8}
    (h : skipWithin fuel bytes = some rest) : rest.length ≤ bytes.length := by
  obtain ⟨last, hle, hlast⟩ := exists_of_runLoop advances_skipTurn h
  cases last with
  | nil =>
    cases hlast
    exact Nat.zero_le _
  | cons b last =>
    rw [skipTurn] at hlast
    split_ifs at hlast
    · cases hlast
    · cases hlast
      exact hle

theorem turnsMove_stringTurn : TurnsMove stringTurn := by
  intro bytes out t h
  cases bytes with
  | nil => cases h; trivial
  | cons b rest =>
    simp only [stringTurn] at h
    split_ifs at h
    · cases h
      exact Nat.lt_succ_self _
    · cases rest with
      | nil => cases h; trivial
      | cons other rest =>
        simp only at h
        split_ifs at h
        · split at h
          · cases h
            trivial
          · rename_i hescape
            have hlt := length_lt_of_parseUnicodeEscape hescape
            cases h
            simp only [Moves, List.length_cons]
            omega
        · cases h
          simp only [Moves, List.length_cons]
          omega
    · split at h
      · cases h
        trivial
      · rename_i hnext
        cases h
        exact length_lt_of_nextChar hnext

section Loops

variable {fuel : ℕ} {value : List UInt8 → Option (Except Stop (Value × List UInt8))}

theorem moves_memberTurn (hvalue : Consumes value) {pairs : List (Value × Value)}
    {key : List Char} {mid : List UInt8}
    {t : Turn (List UInt8 × List (Value × Value)) (Except Stop (Value × List UInt8))}
    (h : memberTurn fuel value pairs key mid = some t) : Moves mid t := by
  obtain ⟨cursor, hskip, h⟩ := Option.bind_eq_some_iff.mp h
  have hcursor := length_le_of_skipWithin hskip
  cases cursor with
  | nil => cases h; trivial
  | cons c rest =>
    have hrest : rest.length < mid.length := hcursor
    simp only at h
    split_ifs at h
    · cases h
      trivial
    · obtain ⟨item, hitem, h⟩ := Option.bind_eq_some_iff.mp h
      cases item with
      | error e => cases h; trivial
      | ok read =>
        obtain ⟨v, rest'⟩ := read
        cases h
        exact (hvalue _ _ _ hitem).trans hrest

theorem turnsMove_objectTurn (hvalue : Consumes value) : TurnsMove (objectTurn fuel value) := by
  intro bytes pairs t h
  obtain ⟨cursor, hskip, h⟩ := Option.bind_eq_some_iff.mp h
  have hcursor := length_le_of_skipWithin hskip
  cases cursor with
  | nil => cases h; trivial
  | cons b rest =>
    have hrest : rest.length < bytes.length := hcursor
    simp only at h
    split_ifs at h
    · cases h
      exact hrest
    · cases h
      exact hrest
    · obtain ⟨read, hread, h⟩ := Option.bind_eq_some_iff.mp h
      cases read with
      | error e => cases h; trivial
      | ok read =>
        obtain ⟨key, mid⟩ := read
        have hmid := (turnsMove_stringTurn.length_lt hread).trans hrest
        exact (moves_memberTurn hvalue h).mono hmid.le
    · cases h
      trivial

theorem turnsMove_arrayTurn (hvalue : Consumes value) : TurnsMove (arrayTurn fuel value) := by
  intro bytes items t h
  obtain ⟨cursor, hskip, h⟩ := Option.bind_eq_some_iff.mp h
  have hcursor := length_le_of_skipWithin hskip
  cases cursor with
  | nil => cases h; trivial
  | cons b rest =>
    have hrest : rest.length < bytes.length := hcursor
    simp only at h
    split_ifs at h
    · cases h
      exact hrest
    · cases h
      exact hrest
    · obtain ⟨item, hitem, h⟩ := Option.bind_eq_some_iff.mp h
      cases item with
      | error e => cases h; trivial
      | ok read =>
        obtain ⟨v, mid⟩ := read
        cases h
        exact (hvalue _ _ _ hitem).trans_le hcursor

end Loops

/-- A value takes at least one byte, by induction on the bound. -/
theorem consumes_valueWithin (floats : FloatText) (fuel : ℕ) :
    Consumes (valueWithin floats fuel) := by
  induction fuel with
  | zero =>
    intro bytes v rest h
    cases h
  | succ fuel ih =>
    intro bytes v tail h
    obtain ⟨cursor, hskip, h⟩ := Option.bind_eq_some_iff.mp h
    have hcursor := length_le_of_skipWithin hskip
    cases cursor with
    | nil => cases h
    | cons b rest =>
      have hrest : rest.length < bytes.length := hcursor
      simp only at h
      split_ifs at h
      · exact ((turnsMove_objectTurn ih).length_lt h).trans hrest
      · exact ((turnsMove_arrayTurn ih).length_lt h).trans hrest
      · obtain ⟨read, hread, heq⟩ := Option.map_eq_some_iff.mp h
        obtain ⟨⟨text, tail'⟩, rfl, heq⟩ := except_map_eq_ok.mp heq
        cases heq
        exact (turnsMove_stringTurn.length_lt hread).trans hrest
      · have hliteral := length_lt_of_parseKeywordLiteral (List.cons_ne_nil _ _) (Option.some.inj h)
        exact hliteral.trans_le hcursor
      · exact (length_lt_of_parseNumber (Option.some.inj h)).trans_le hcursor

/-! ### The JSON reader ends -/

theorem unfolds_skipTurn (bytes : List UInt8) : Unfolds skipWs skipTurn bytes := by
  cases bytes with
  | nil => exact .inr rfl
  | cons b rest =>
    rw [Unfolds, skipTurn, skipWs]
    split_ifs with hspace
    · rw [List.dropWhile_cons_of_pos hspace]
      exact .inl ⟨rest, rfl, rfl⟩
    · rw [List.dropWhile_cons_of_neg hspace]
      exact .inr rfl

theorem skipWithin_eq {fuel : ℕ} {bytes : List UInt8} (h : bytes.length < fuel) :
    skipWithin fuel bytes = some (skipWs bytes) :=
  runLoop_eq_some advances_skipTurn (fun state _ ↦ unfolds_skipTurn state) le_rfl h

theorem unfolds_stringTurn (state : List UInt8 × List Char) :
    Unfolds (fun state ↦ parseString state.1 state.2) stringTurn state := by
  obtain ⟨bytes, out⟩ := state
  cases bytes with
  | nil => exact .inr (by simp only [parseString_nil]; rfl)
  | cons b rest =>
    simp only [Unfolds, stringTurn]
    split_ifs with hquote hslash
    · rw [hquote, parseString_quote]
      exact .inr rfl
    · cases rest with
      | nil => exact .inr (by rw [hslash, parseString_trailing])
      | cons other rest =>
        simp only
        split_ifs with hu
        · rw [hslash, hu, parseString_unicode_eq]
          cases parseUnicodeEscape rest with
          | error e => exact .inr rfl
          | ok read => exact .inl ⟨_, rfl, rfl⟩
        · exact .inl ⟨_, rfl, by rw [hslash, parseString_escape hu]⟩
    · rw [parseString_char_eq hquote hslash]
      cases nextChar (b :: rest) with
      | none => exact .inr rfl
      | some read => exact .inl ⟨_, rfl, rfl⟩

theorem runLoop_stringTurn {fuel : ℕ} {bytes : List UInt8} (h : bytes.length < fuel) :
    runLoop stringTurn fuel (bytes, []) = some (parseString bytes []) :=
  runLoop_eq_some turnsMove_stringTurn.advances (fun state _ ↦ unfolds_stringTurn state) le_rfl h

section Loops

/-! Assumes: the reader of values reads them up to a length below the bound on the turns. -/

variable {floats : FloatText} {fuel bound : ℕ}
  {value : List UInt8 → Option (Except Stop (Value × List UInt8))}
  (hvalue : ∀ bytes, bytes.length ≤ bound → value bytes = some (parseValue floats bytes))
  (hbound : bound < fuel)

include hvalue hbound

/-- After a key the turn goes on as the reader of members. -/
theorem unfolds_memberTurn (pairs : List (Value × Value)) (key : List Char)
    {bytes mid : List UInt8} (hmid : mid.length < bytes.length) (hle : mid.length ≤ bound) :
    (∃ next, memberTurn fuel value pairs key mid = some (.again next) ∧
        parseMember floats bytes pairs key mid = parseObject floats next.1 next.2) ∨
      memberTurn fuel value pairs key mid =
        some (.done (parseMember floats bytes pairs key mid)) := by
  simp only [memberTurn, parseMember, skipWithin_eq (hle.trans_lt hbound), Option.bind_eq_bind,
    Option.bind_some]
  cases hskip : skipWs mid with
  | nil => exact .inr rfl
  | cons c rest =>
    have hrest := length_lt_of_skipWs hskip
    simp only [hvalue rest (hrest.le.trans hle), Option.bind_some]
    split_ifs with hcolon
    · exact .inr rfl
    · cases hitem : parseValue floats rest with
      | error e => exact .inr rfl
      | ok read =>
        obtain ⟨v, rest'⟩ := read
        have hrest' := ((reads_of_parseValue hitem).length_lt.trans hrest).trans hmid
        simp only [if_pos hrest']
        exact .inl ⟨_, rfl, rfl⟩

/-- The loop over the members reads an object. -/
theorem unfolds_objectTurn {state : List UInt8 × List (Value × Value)}
    (hle : state.1.length ≤ bound) :
    Unfolds (fun state ↦ parseObject floats state.1 state.2) (objectTurn fuel value) state := by
  obtain ⟨bytes, pairs⟩ := state
  simp only [Unfolds, objectTurn, skipWithin_eq (hle.trans_lt hbound), Option.bind_eq_bind,
    Option.bind_some]
  cases hskip : skipWs bytes with
  | nil => exact .inr (by rw [parseObject_nil hskip])
  | cons b rest =>
    have hrest := length_lt_of_skipWs hskip
    have hshort : rest.length < bound := hrest.trans_le hle
    rw [parseObject_eq hskip]
    simp only [runLoop_stringTurn (hshort.trans hbound), Option.bind_some]
    split_ifs with hclose hcomma hquote
    · exact .inr rfl
    · exact .inl ⟨_, rfl, rfl⟩
    · cases hkey : parseString rest [] with
      | error e => exact .inr rfl
      | ok read =>
        obtain ⟨key, mid⟩ := read
        have hmid := (length_lt_of_parseString hkey).trans hrest
        exact unfolds_memberTurn hvalue hbound pairs key hmid (hmid.le.trans hle)
    · exact .inr rfl

/-- The loop over the items reads an array. -/
theorem unfolds_arrayTurn {state : List UInt8 × List Value} (hle : state.1.length ≤ bound) :
    Unfolds (fun state ↦ parseArray floats state.1 state.2) (arrayTurn fuel value) state := by
  obtain ⟨bytes, items⟩ := state
  simp only [Unfolds, arrayTurn, skipWithin_eq (hle.trans_lt hbound), Option.bind_eq_bind,
    Option.bind_some]
  cases hskip : skipWs bytes with
  | nil => exact .inr (by rw [parseArray_nil hskip])
  | cons b rest =>
    have hcursor : (b :: rest).length ≤ bytes.length := length_lt_of_skipWs hskip
    rw [parseArray_eq hskip]
    simp only [hvalue _ (hcursor.trans hle), Option.bind_some]
    split_ifs with hclose hcomma
    · exact .inr rfl
    · exact .inl ⟨_, rfl, rfl⟩
    · cases hitem : parseValue floats (b :: rest) with
      | error e => exact .inr rfl
      | ok read =>
        obtain ⟨v, mid⟩ := read
        have hmid := ((reads_of_parseValue hitem).length_lt).trans_le hcursor
        simp only [if_pos hmid]
        exact .inl ⟨_, rfl, rfl⟩

end Loops

/-- With a bound above the number of bytes the reader of values returns, by induction on the
bound. -/
theorem valueWithin_eq {floats : FloatText} {fuel : ℕ} {bytes : List UInt8}
    (h : bytes.length < fuel) : valueWithin floats fuel bytes = some (parseValue floats bytes) := by
  induction fuel generalizing bytes with
  | zero => exact absurd h (Nat.not_lt_zero _)
  | succ fuel ih =>
    rw [valueWithin, skipWithin_eq h, Option.bind_eq_bind, Option.bind_some]
    cases hskip : skipWs bytes with
    | nil => rw [parseValue_nil hskip]
    | cons b rest =>
      have hrest : rest.length < fuel :=
        (length_lt_of_skipWs hskip).trans_le (Nat.lt_succ_iff.mp h)
      have hvalue (cursor : List UInt8) (hle : cursor.length ≤ rest.length) :
          valueWithin floats fuel cursor = some (parseValue floats cursor) :=
        ih (hle.trans_lt hrest)
      have hmoves := consumes_valueWithin floats fuel
      rw [parseValue_eq hskip]
      simp only
      split_ifs
      · exact runLoop_eq_some (turnsMove_objectTurn hmoves).advances
          (fun _ hle ↦ unfolds_objectTurn hvalue hrest hle) le_rfl hrest
      · exact runLoop_eq_some (turnsMove_arrayTurn hmoves).advances
          (fun _ hle ↦ unfolds_arrayTurn hvalue hrest hle) le_rfl hrest
      · rw [runLoop_stringTurn hrest]
        rfl
      · rfl
      · rfl

/-- With a bound above the number of bytes the reader returns. -/
theorem parseWithin_eq {floats : FloatText} {fuel : ℕ} {s : List Char}
    (h : (utf8 s).length < fuel) : parseWithin floats fuel s = some (parse floats s) := by
  have hstart : (skipWs (utf8 s)).length < fuel := (length_skipWs_le _).trans_lt h
  simp only [parseWithin, parse, skipWithin_eq h, valueWithin_eq hstart, Option.bind_eq_bind,
    Option.bind_some]
  cases hv : parseValue floats (skipWs (utf8 s)) with
  | error e => rfl
  | ok read =>
    obtain ⟨v, rest⟩ := read
    have hrest := (reads_of_parseValue hv).length_lt.trans hstart
    simp only [skipWithin_eq hrest, Option.bind_some]
    cases skipWs rest with
    | nil => rfl
    | cons b tail => rfl

/-- Every turn of a loop of the JSON reader moves the cursor or returns, and a value takes at least
one byte. -/
structure Progress (floats : FloatText) : Prop where
  skip : Advances List.length skipTurn
  string : TurnsMove stringTurn
  object : ∀ fuel, TurnsMove (objectTurn fuel (valueWithin floats fuel))
  array : ∀ fuel, TurnsMove (arrayTurn fuel (valueWithin floats fuel))
  value : ∀ fuel, Consumes (valueWithin floats fuel)

theorem progress (floats : FloatText) : Progress floats where
  skip := advances_skipTurn
  string := turnsMove_stringTurn
  object fuel := turnsMove_objectTurn (consumes_valueWithin floats fuel)
  array fuel := turnsMove_arrayTurn (consumes_valueWithin floats fuel)
  value := consumes_valueWithin floats

end Json

/-- Both readers end on every text: every turn of a loop moves the cursor or returns, a value takes
at least one byte, and with any bound above the number of bytes the loops return what the readers
do, which is not that a loop hangs. -/
theorem readers_end (floats : FloatText) :
    Edn.Progress floats ∧ Json.Progress floats ∧
    ∀ (s : List Char) (fuel : ℕ), (utf8 s).length < fuel →
      (Edn.parseWithin floats fuel s = some (Edn.parse floats s) ∧
        Edn.parse floats s ≠ .error .hang) ∧
      (Json.parseWithin floats fuel s = some (Json.parse floats s) ∧
        Json.parse floats s ≠ .error .hang) := by
  refine ⟨Edn.progress floats, Json.progress floats, fun s fuel hfuel ↦ ⟨⟨?_, ?_⟩, ?_, ?_⟩⟩
  · exact Edn.parseWithin_eq hfuel
  · exact Edn.parse_panics_iff.2
  · exact Json.parseWithin_eq hfuel
  · exact Json.parse_panics_iff.2

end Propsim.Interchange
