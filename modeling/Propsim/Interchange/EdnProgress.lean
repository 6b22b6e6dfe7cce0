import Propsim.Foundation.Loops
import Propsim.Interchange.EdnBoundaries
import Propsim.Interchange.EdnRoundTrip

/-!
# The EDN reader advances

The loops of the reader, turn by turn as `edn.rs` has them and with no check that a turn moves the
cursor: `parseWithin` runs them with a bound on their turns and on the depth of the values. Every
turn moves the cursor or returns, a value takes at least one byte, and so the reader ends on every
text within a bound that the length of the text gives.
-/

set_option autoImplicit false
set_option relaxedAutoImplicit false

namespace Propsim.Interchange.Edn

open Foundation

/-! ### The loops of the EDN reader -/

/-- A turn of the loop over a line comment. -/
def commentTurn : List UInt8 → Option (Turn (List UInt8) (List UInt8))
  | [] => some (.done [])
  | c :: rest => if c = '\n'.toUInt8 then some (.done rest) else some (.again rest)

/-- A turn of `skip_ws`. -/
def skipTurn (fuel : ℕ) : List UInt8 → Option (Turn (List UInt8) (List UInt8))
  | [] => some (.done [])
  | b :: rest =>
    if isAsciiWhitespace b || b == ','.toUInt8 then some (.again rest)
    else if b == ';'.toUInt8 then (runLoop commentTurn fuel (b :: rest)).map .again
    else some (.done (b :: rest))

def skipWithin (fuel : ℕ) (bytes : List UInt8) : Option (List UInt8) :=
  runLoop (skipTurn fuel) fuel bytes

/-- A turn of `parse_string`. -/
def stringTurn : List UInt8 × List Char →
    Option (Turn (List UInt8 × List Char) (Except Stop (List Char × List UInt8)))
  | ([], _) => some (.done (fail "unterminated string"))
  | (b :: rest, out) =>
    if b = '"'.toUInt8 then some (.done (.ok (out, rest)))
    else if b = '\\'.toUInt8 then
      match rest with
      | [] => some (.done (fail "trailing escape"))
      | other :: rest => some (.again (rest, out ++ [escaped other]))
    else
      match nextChar (b :: rest) with
      | none => some (.done (.error .panic))
      | some (ch, rest) => some (.again (rest, out ++ [ch]))

section Loops

variable (fuel : ℕ) (value : List UInt8 → Option (Except Stop (Value × List UInt8)))

/-- A turn of `parse_map`, with a reader of values. -/
def mapTurn : List UInt8 × List (Value × Value) →
    Option (Turn (List UInt8 × List (Value × Value)) (Except Stop (Value × List UInt8)))
  | (bytes, pairs) => do
    match ← skipWithin fuel bytes with
    | [] => some (.done (fail "unterminated map"))
    | b :: rest =>
      if b = '}'.toUInt8 then some (.done (.ok (.map pairs, rest)))
      else
        match ← value (b :: rest) with
        | .error e => some (.done (.error e))
        | .ok (k, mid) =>
          match ← value mid with
          | .error e => some (.done (.error e))
          | .ok (v, mid) => some (.again (mid, pairs ++ [(k, v)]))

/-- A turn of `parse_seq`, with a reader of values. -/
def seqTurn (close : UInt8) : List UInt8 × List Value →
    Option (Turn (List UInt8 × List Value) (Except Stop (Value × List UInt8)))
  | (bytes, items) => do
    match ← skipWithin fuel bytes with
    | [] => some (.done (fail "unterminated list/vector"))
    | b :: rest =>
      if b = close then some (.done (.ok (.list items, rest)))
      else
        match ← value (b :: rest) with
        | .error e => some (.done (.error e))
        | .ok (v, mid) => some (.again (mid, items ++ [v]))

end Loops

/-- `parse_value`, with a bound on the turns of its loops and on the depth of the value. -/
def valueWithin (floats : FloatText) :
    ℕ → List UInt8 → Option (Except Stop (Value × List UInt8))
  | 0, _ => none
  | fuel + 1, bytes => do
    match ← skipWithin (fuel + 1) bytes with
    | [] => some (fail "unexpected end of input")
    | b :: rest =>
      if b = '{'.toUInt8 then runLoop (mapTurn fuel (valueWithin floats fuel)) fuel (rest, [])
      else if b = '['.toUInt8 then
        runLoop (seqTurn fuel (valueWithin floats fuel) ']'.toUInt8) fuel (rest, [])
      else if b = '('.toUInt8 then
        runLoop (seqTurn fuel (valueWithin floats fuel) ')'.toUInt8) fuel (rest, [])
      else if b = '"'.toUInt8 then
        (runLoop stringTurn fuel (rest, [])).map fun read ↦
          read.map fun (s, rest) ↦ (.str (.ofList s), rest)
      else if b = ':'.toUInt8 then some (parseKeyword rest)
      else some (parseAtom floats (b :: rest))

/-- `parse_edn`, with a bound on the turns of its loops and on the depth of the value. -/
def parseWithin (floats : FloatText) (fuel : ℕ) (s : List Char) : Option (Except Stop Value) := do
  match ← valueWithin floats fuel (← skipWithin fuel (utf8 s)) with
  | .error e => some (.error e)
  | .ok (v, rest) =>
    match ← skipWithin fuel rest with
    | [] => some (.ok v)
    | b :: rest =>
      some (fail
        ("trailing input at byte " ++ toString ((utf8 s).length - (b :: rest).length) ++ " "))

example : parseWithin sampleFloats 9 "[(nil]".toList =
    some (fail "unrecognized token ``") := by decide +kernel

/-! ### Turns of the EDN reader -/

theorem advances_commentTurn : Advances List.length commentTurn := by
  intro state next h
  cases state with
  | nil => cases h
  | cons c rest =>
    rw [commentTurn] at h
    split_ifs at h
    · cases h
    · cases h
      exact Nat.lt_succ_self _

/-- A comment takes at least the byte that opens it. -/
theorem length_lt_of_comment {fuel : ℕ} {b : UInt8} {rest tail : List UInt8}
    (h : runLoop commentTurn fuel (b :: rest) = some tail) : tail.length < (b :: rest).length := by
  obtain ⟨last, hle, hlast⟩ := exists_of_runLoop advances_commentTurn h
  cases last with
  | nil =>
    cases hlast
    exact Nat.succ_pos _
  | cons c last =>
    rw [commentTurn] at hlast
    split_ifs at hlast
    · cases hlast
      exact hle
    · cases hlast

theorem advances_skipTurn (fuel : ℕ) : Advances List.length (skipTurn fuel) := by
  intro state next h
  cases state with
  | nil => cases h
  | cons b rest =>
    rw [skipTurn] at h
    split_ifs at h
    · cases h
      exact Nat.lt_succ_self _
    · obtain ⟨tail, htail, heq⟩ := Option.map_eq_some_iff.mp h
      cases heq
      exact length_lt_of_comment htail
    · cases h

theorem length_le_of_skipWithin {fuel : ℕ} {bytes rest : List UInt8}
    (h : skipWithin fuel bytes = some rest) : rest.length ≤ bytes.length := by
  obtain ⟨last, hle, hlast⟩ := exists_of_runLoop (advances_skipTurn fuel) h
  cases last with
  | nil =>
    cases hlast
    exact Nat.zero_le _
  | cons b last =>
    rw [skipTurn] at hlast
    split_ifs at hlast
    · cases hlast
    · obtain ⟨_, _, heq⟩ := Option.map_eq_some_iff.mp hlast
      cases heq
    · cases hlast
      exact hle

theorem turnsMove_stringTurn : TurnsMove stringTurn := by
  intro bytes out t h
  cases bytes with
  | nil => cases h; trivial
  | cons b rest =>
    simp only [stringTurn] at h
    split_ifs at h
    · cases h
      exact Nat.lt_succ_self _
    · cases rest with
      | nil => cases h; trivial
      | cons other rest =>
        cases h
        simp only [Moves, List.length_cons]
        omega
    · split at h
      · cases h
        trivial
      · rename_i hnext
        cases h
        exact length_lt_of_nextChar hnext

section Loops

variable {fuel : ℕ} {value : List UInt8 → Option (Except Stop (Value × List UInt8))}

theorem turnsMove_mapTurn (hvalue : Consumes value) : TurnsMove (mapTurn fuel value) := by
  intro bytes pairs t h
  obtain ⟨cursor, hskip, h⟩ := Option.bind_eq_some_iff.mp h
  have hcursor := length_le_of_skipWithin hskip
  cases cursor with
  | nil => cases h; trivial
  | cons b rest =>
    simp only at h
    split_ifs at h
    · cases h
      exact hcursor
    · obtain ⟨key, hkey, h⟩ := Option.bind_eq_some_iff.mp h
      cases key with
      | error e => cases h; trivial
      | ok read =>
        obtain ⟨k, mid⟩ := read
        have hmid := hvalue _ _ _ hkey
        obtain ⟨item, hitem, h⟩ := Option.bind_eq_some_iff.mp h
        cases item with
        | error e => cases h; trivial
        | ok read =>
          obtain ⟨v, mid'⟩ := read
          cases h
          exact ((hvalue _ _ _ hitem).trans hmid).trans_le hcursor

theorem turnsMove_seqTurn (hvalue : Consumes value) (close : UInt8) :
    TurnsMove (seqTurn fuel value close) := by
  intro bytes items t h
  obtain ⟨cursor, hskip, h⟩ := Option.bind_eq_some_iff.mp h
  have hcursor := length_le_of_skipWithin hskip
  cases cursor with
  | nil => cases h; trivial
  | cons b rest =>
    simp only at h
    split_ifs at h
    · cases h
      exact hcursor
    · obtain ⟨item, hitem, h⟩ := Option.bind_eq_some_iff.mp h
      cases item with
      | error e => cases h; trivial
      | ok read =>
        obtain ⟨v, mid⟩ := read
        cases h
        exact (hvalue _ _ _ hitem).trans_le hcursor

end Loops

/-- A value takes at least one byte, by induction on the bound. -/
theorem consumes_valueWithin (floats : FloatText) (fuel : ℕ) :
    Consumes (valueWithin floats fuel) := by
  induction fuel with
  | zero =>
    intro bytes v rest h
    cases h
  | succ fuel ih =>
    intro bytes v tail h
    obtain ⟨cursor, hskip, h⟩ := Option.bind_eq_some_iff.mp h
    have hcursor := length_le_of_skipWithin hskip
    cases cursor with
    | nil => cases h
    | cons b rest =>
      have hrest : rest.length < bytes.length := hcursor
      simp only at h
      split_ifs at h
      · exact ((turnsMove_mapTurn ih).length_lt h).trans hrest
      · exact ((turnsMove_seqTurn ih _).length_lt h).trans hrest
      · exact ((turnsMove_seqTurn ih _).length_lt h).trans hrest
      · obtain ⟨read, hread, heq⟩ := Option.map_eq_some_iff.mp h
        obtain ⟨⟨text, tail'⟩, rfl, heq⟩ := except_map_eq_ok.mp heq
        cases heq
        exact (turnsMove_stringTurn.length_lt hread).trans hrest
      · obtain ⟨k, -, htoken, -, rfl⟩ := parseKeyword_eq_ok (Option.some.inj h)
        exact (length_dropWhile_lt htoken).trans hrest
      · exact (length_lt_of_parseAtom (Option.some.inj h)).trans_le hcursor

/-! ### The EDN reader ends -/

/-- What is left after a line comment. -/
def afterComment (bytes : List UInt8) : List UInt8 :=
  (bytes.dropWhile (· != '\n'.toUInt8)).drop 1

theorem skipFrom_true (bytes : List UInt8) :
    skipFrom true bytes = skipFrom false (afterComment bytes) := by
  induction bytes with
  | nil => rfl
  | cons c rest ih =>
    rw [skipFrom, afterComment]
    by_cases hc : c = '\n'.toUInt8
    · rw [List.dropWhile_cons_of_neg (by simp [hc]), bne_eq_false_iff_eq.mpr hc]
      rfl
    · rw [List.dropWhile_cons_of_pos (by simpa using hc), bne_iff_ne.mpr hc, ih, afterComment]

theorem unfolds_commentTurn (bytes : List UInt8) : Unfolds afterComment commentTurn bytes := by
  cases bytes with
  | nil => exact .inr rfl
  | cons c rest =>
    rw [Unfolds, commentTurn, afterComment]
    split_ifs with hc
    · rw [List.dropWhile_cons_of_neg (by simp [hc])]
      exact .inr rfl
    · rw [List.dropWhile_cons_of_pos (by simpa using hc)]
      exact .inl ⟨rest, rfl, rfl⟩

/-- The white-space loop skips white space. Assumes: the loop over a comment may take more turns
than there are bytes. -/
theorem unfolds_skipTurn {fuel : ℕ} {bytes : List UInt8} (h : bytes.length < fuel) :
    Unfolds skipWs (skipTurn fuel) bytes := by
  cases bytes with
  | nil => exact .inr rfl
  | cons b rest =>
    rw [Unfolds, skipTurn, skipWs, skipFrom]
    split_ifs with hspace hcomment
    · exact .inl ⟨rest, rfl, rfl⟩
    · -- The comment loop takes the semicolon that the reader has passed.
      have hsemicolon : afterComment (b :: rest) = afterComment rest := by
        rw [afterComment, List.dropWhile_cons_of_pos, afterComment]
        rw [beq_iff_eq.mp hcomment]
        decide
      rw [runLoop_eq_some advances_commentTurn (fun state _ ↦ unfolds_commentTurn state) le_rfl h,
        hsemicolon, skipFrom_true]
      exact .inl ⟨_, rfl, rfl⟩
    · exact .inr rfl

theorem skipWithin_eq {fuel : ℕ} {bytes : List UInt8} (h : bytes.length < fuel) :
    skipWithin fuel bytes = some (skipWs bytes) :=
  runLoop_eq_some (advances_skipTurn fuel) (fun _ hle ↦ unfolds_skipTurn (hle.trans_lt h)) le_rfl h

theorem unfolds_stringTurn (state : List UInt8 × List Char) :
    Unfolds (fun state ↦ parseString state.1 state.2) stringTurn state := by
  obtain ⟨bytes, out⟩ := state
  cases bytes with
  | nil => exact .inr (by simp only [parseString_nil]; rfl)
  | cons b rest =>
    simp only [Unfolds, stringTurn]
    split_ifs with hquote hslash
    · rw [hquote, parseString_quote]
      exact .inr rfl
    · cases rest with
      | nil => exact .inr (by rw [hslash, parseString_trailing])
      | cons other rest => exact .inl ⟨_, rfl, by rw [hslash, parseString_escape]⟩
    · rw [parseString_char_eq hquote hslash]
      cases nextChar (b :: rest) with
      | none => exact .inr rfl
      | some read => exact .inl ⟨_, rfl, rfl⟩

section Loops

/-! Assumes: the reader of values reads them up to a length below the bound on the turns. -/

variable {floats : FloatText} {fuel bound : ℕ}
  {value : List UInt8 → Option (Except Stop (Value × List UInt8))}
  (hvalue : ∀ bytes, bytes.length ≤ bound → value bytes = some (parseValue floats bytes))
  (hbound : bound < fuel)

include hvalue hbound

/-- The loop over the pairs reads a map. -/
theorem unfolds_mapTurn {state : List UInt8 × List (Value × Value)}
    (hle : state.1.length ≤ bound) :
    Unfolds (fun state ↦ parseMap floats state.1 state.2) (mapTurn fuel value) state := by
  obtain ⟨bytes, pairs⟩ := state
  simp only [Unfolds, mapTurn, skipWithin_eq (hle.trans_lt hbound), Option.bind_eq_bind,
    Option.bind_some]
  cases hskip : skipWs bytes with
  | nil => exact .inr (by rw [parseMap_nil hskip])
  | cons b rest =>
    have hrest := length_lt_of_skipWs hskip
    have hcursor : (b :: rest).length ≤ bytes.length := hrest
    rw [parseMap_eq hskip]
    simp only [hvalue _ (hcursor.trans hle), Option.bind_some]
    split_ifs with hclose
    · exact .inr rfl
    · cases hkey : parseValue floats (b :: rest) with
      | error e => exact .inr rfl
      | ok read =>
        obtain ⟨k, mid⟩ := read
        have hmid := ((reads_of_parseValue hkey).length_lt).trans_le hcursor
        simp only [if_pos hmid, hvalue mid (hmid.le.trans hle), Option.bind_some]
        cases hitem : parseValue floats mid with
        | error e => exact .inr rfl
        | ok read =>
          obtain ⟨v, mid'⟩ := read
          have hmid' := (reads_of_parseValue hitem).length_lt.trans hmid
          simp only [if_pos hmid']
          exact .inl ⟨_, rfl, rfl⟩

/-- The loop over the items reads a vector or a list. -/
theorem unfolds_seqTurn (close : UInt8) {state : List UInt8 × List Value}
    (hle : state.1.length ≤ bound) :
    Unfolds (fun state ↦ parseSeq floats close state.1 state.2) (seqTurn fuel value close)
      state := by
  obtain ⟨bytes, items⟩ := state
  simp only [Unfolds, seqTurn, skipWithin_eq (hle.trans_lt hbound), Option.bind_eq_bind,
    Option.bind_some]
  cases hskip : skipWs bytes with
  | nil => exact .inr (by rw [parseSeq_nil hskip])
  | cons b rest =>
    have hrest := length_lt_of_skipWs hskip
    have hcursor : (b :: rest).length ≤ bytes.length := hrest
    rw [parseSeq_eq hskip]
    simp only [hvalue _ (hcursor.trans hle), Option.bind_some]
    split_ifs with hclose
    · exact .inr rfl
    · cases hitem : parseValue floats (b :: rest) with
      | error e => exact .inr rfl
      | ok read =>
        obtain ⟨v, mid⟩ := read
        have hmid := ((reads_of_parseValue hitem).length_lt).trans_le hcursor
        simp only [if_pos hmid]
        exact .inl ⟨_, rfl, rfl⟩

end Loops

/-- With a bound above the number of bytes the reader of values returns, by induction on the
bound. -/
theorem valueWithin_eq {floats : FloatText} {fuel : ℕ} {bytes : List UInt8}
    (h : bytes.length < fuel) : valueWithin floats fuel bytes = some (parseValue floats bytes) := by
  induction fuel generalizing bytes with
  | zero => exact absurd h (Nat.not_lt_zero _)
  | succ fuel ih =>
    rw [valueWithin, skipWithin_eq h, Option.bind_eq_bind, Option.bind_some]
    cases hskip : skipWs bytes with
    | nil => rw [parseValue_nil hskip]
    | cons b rest =>
      have hrest : rest.length < fuel :=
        (length_lt_of_skipWs hskip).trans_le (Nat.lt_succ_iff.mp h)
      have hvalue (cursor : List UInt8) (hle : cursor.length ≤ rest.length) :
          valueWithin floats fuel cursor = some (parseValue floats cursor) :=
        ih (hle.trans_lt hrest)
      have hmoves := consumes_valueWithin floats fuel
      have hseq (close : UInt8) : runLoop (seqTurn fuel (valueWithin floats fuel) close) fuel
          (rest, []) = some (parseSeq floats close rest []) :=
        runLoop_eq_some (turnsMove_seqTurn hmoves close).advances
          (fun _ hle ↦ unfolds_seqTurn hvalue hrest close hle) le_rfl hrest
      rw [parseValue_eq hskip]
      simp only
      split_ifs
      · exact runLoop_eq_some (turnsMove_mapTurn hmoves).advances
          (fun _ hle ↦ unfolds_mapTurn hvalue hrest hle) le_rfl hrest
      · exact hseq _
      · exact hseq _
      · rw [runLoop_eq_some turnsMove_stringTurn.advances (fun state _ ↦ unfolds_stringTurn state)
          le_rfl hrest]
        rfl
      · rfl
      · rfl

/-- With a bound above the number of bytes the reader returns. -/
theorem parseWithin_eq {floats : FloatText} {fuel : ℕ} {s : List Char}
    (h : (utf8 s).length < fuel) : parseWithin floats fuel s = some (parse floats s) := by
  have hstart : (skipWs (utf8 s)).length < fuel := (length_skipFrom_le false _).trans_lt h
  simp only [parseWithin, parse, skipWithin_eq h, valueWithin_eq hstart, Option.bind_eq_bind,
    Option.bind_some]
  cases hv : parseValue floats (skipWs (utf8 s)) with
  | error e => rfl
  | ok read =>
    obtain ⟨v, rest⟩ := read
    have hrest := (reads_of_parseValue hv).length_lt.trans hstart
    simp only [skipWithin_eq hrest, Option.bind_some]
    cases skipWs rest with
    | nil => rfl
    | cons b tail => rfl

/-- Every turn of a loop of the EDN reader moves the cursor or returns, and a value takes at least
one byte. -/
structure Progress (floats : FloatText) : Prop where
  comment : Advances List.length commentTurn
  skip : ∀ fuel, Advances List.length (skipTurn fuel)
  string : TurnsMove stringTurn
  map : ∀ fuel, TurnsMove (mapTurn fuel (valueWithin floats fuel))
  seq : ∀ fuel close, TurnsMove (seqTurn fuel (valueWithin floats fuel) close)
  value : ∀ fuel, Consumes (valueWithin floats fuel)

theorem progress (floats : FloatText) : Progress floats where
  comment := advances_commentTurn
  skip := advances_skipTurn
  string := turnsMove_stringTurn
  map fuel := turnsMove_mapTurn (consumes_valueWithin floats fuel)
  seq fuel := turnsMove_seqTurn (consumes_valueWithin floats fuel)
  value := consumes_valueWithin floats

end Propsim.Interchange.Edn
