import Propsim.Foundation.NumberText
import Propsim.Interchange.Operation

/-!
# The writers of histories

`edn.rs` and `history.rs`: the EDN and the JSON text of a history. Both write the entry as a map of
keywords and differ in their separators, in keywords, which JSON writes as strings with a leading
colon, and in map keys, which JSON writes as strings. They recurse once for each level of nesting,
and the depth of the stack is outside the model.
-/

set_option autoImplicit false
set_option relaxedAutoImplicit false

namespace Propsim.Interchange

open Foundation

/-- A decimal number: a sign, a whole part without leading zeros and a fraction. -/
def IsDecimal (text : List Char) : Prop :=
  ∃ sign whole fraction, text = sign ++ whole ++ fraction ∧ (sign = [] ∨ sign = ['-']) ∧
    whole ≠ [] ∧ (∀ c ∈ whole, c.isDigit) ∧ (whole.head? = some '0' → whole = ['0']) ∧
    (fraction = [] ∨ ∃ digits, fraction = '.' :: digits ∧ digits ≠ [] ∧ ∀ c ∈ digits, c.isDigit)

/-- The texts of floats, `f64`'s `Display` and `FromStr`. The standard library writes a finite value
as a decimal number without an exponent, and reads what it writes back, with or without the decimal
point. -/
structure FloatText where
  display : Binary64 → List Char
  parse : List Char → Option Binary64
  decimal : ∀ f : Binary64, f.isFinite → IsDecimal (display f)
  inverse : ∀ f : Binary64, f.isFinite → parse (display f) = some f
  pointZero : ∀ f : Binary64, f.isFinite → '.' ∉ display f →
    parse (display f ++ ['.', '0']) = some f
  parse_nil : parse [] = none

/-- One and a half. -/
def oneAndHalf : Binary64 := ⟨0x3FF8000000000000⟩

/-- Float texts that are those of the standard library at one and a half, and number the other
values. -/
def sampleFloats : FloatText where
  display f := if f = oneAndHalf then ['1', '.', '5']
    else '2' :: '.' :: Nat.toDigits 10 f.bits.toNat
  parse text := match text with
    | ['1', '.', '5'] => some oneAndHalf
    | '2' :: '.' :: digits => (digitsValue 10 digits).map fun n ↦ ⟨.ofNat n⟩
    | _ => none
  decimal f _ := by
    split_ifs
    · exact ⟨[], ['1'], ['.', '5'], rfl, .inl rfl, by decide, List.all_eq_true.mp (by decide),
        by decide, .inr ⟨['5'], rfl, by decide, List.all_eq_true.mp (by decide)⟩⟩
    · refine ⟨[], ['2'], '.' :: Nat.toDigits 10 f.bits.toNat, rfl, .inl rfl, by decide,
        List.all_eq_true.mp (by decide), by decide,
        .inr ⟨_, rfl, Nat.toDigits_ne_nil, fun c ↦ ?_⟩⟩
      exact Nat.isDigit_of_mem_toDigits (by decide) (by decide)
  inverse f _ := by
    split_ifs with h
    · rw [h]
      rfl
    · have hdigits := @digitsValue_ten (Nat.toDigits 10 f.bits.toNat) Nat.toDigits_ne_nil
        fun c ↦ Nat.isDigit_of_mem_toDigits (by decide) (by decide)
      simp [hdigits]
  pointZero f _ hpoint := by
    exfalso
    split_ifs at hpoint <;> simp at hpoint
  parse_nil := rfl

variable (floats : FloatText)

/-- The text of a float, with a decimal point. -/
def fmtFloat (f : Binary64) : List Char :=
  if f.isFinite then
    let s := floats.display f
    if '.' ∈ s ∨ 'e' ∈ s ∨ 'E' ∈ s then s else s ++ ['.', '0']
  else "nil".toList

/-- The characters of numbers. -/
def isNumberChar (c : Char) : Bool := c.isDigit || c == '-' || c == '.'

theorem lt_of_isNumberChar {c : Char} (h : isNumberChar c) : c.toNat < 128 := by
  simp only [isNumberChar, Bool.or_eq_true, beq_iff_eq] at h
  rcases h with (hdigit | rfl) | rfl
  · have hhigh : c.toNat ≤ 57 := by
      simp only [Char.isDigit, Bool.and_eq_true, decide_eq_true_eq] at hdigit
      exact hdigit.2
    exact Nat.lt_of_le_of_lt hhigh (by decide)
  · decide
  · decide

/-- No character of a number is a letter. -/
theorem isAlpha_of_isNumberChar {c : Char} (h : isNumberChar c) : c.isAlpha = false := by
  simp only [isNumberChar, Bool.or_eq_true, beq_iff_eq] at h
  rcases h with (h | rfl) | rfl
  · exact isAlpha_of_isDigit h
  · rfl
  · rfl

theorem isNumberChar_of_mem_showI64 {i : Int64} {c : Char} (h : c ∈ showI64 i) :
    isNumberChar c := by
  rcases mem_showI64 h with h | rfl
  · simp [isNumberChar, h]
  · rfl

theorem IsDecimal.isNumberChar {text : List Char} (h : IsDecimal text) :
    ∀ c ∈ text, isNumberChar c := by
  obtain ⟨sign, whole, fraction, rfl, hsign, -, hwhole, -, hfraction⟩ := h
  intro c hc
  rcases List.mem_append.mp hc with hc | hc
  · rcases List.mem_append.mp hc with hc | hc
    · rcases hsign with rfl | rfl
      · cases hc
      · rw [List.mem_singleton.mp hc]
        rfl
    · simp [Interchange.isNumberChar, hwhole c hc]
  · rcases hfraction with rfl | ⟨digits, rfl, -, hdigits⟩
    · cases hc
    · rcases List.mem_cons.mp hc with rfl | hc
      · rfl
      · simp [Interchange.isNumberChar, hdigits c hc]

/-- The text of a finite float has a decimal point and is read back. -/
theorem fmtFloat_finite {f : Binary64} (h : f.isFinite) :
    '.' ∈ fmtFloat floats f ∧ (∀ c ∈ fmtFloat floats f, isNumberChar c) ∧
      floats.parse (fmtFloat floats f) = some f := by
  have hchars := (floats.decimal f h).isNumberChar
  rw [fmtFloat, if_pos h]
  simp only
  split_ifs with hpoint
  · have hmem : '.' ∈ floats.display f := by
      rcases hpoint with hmem | hmem | hmem
      · exact hmem
      · exact absurd (hchars _ hmem) (by decide)
      · exact absurd (hchars _ hmem) (by decide)
    exact ⟨hmem, hchars, floats.inverse f h⟩
  · rw [not_or] at hpoint
    refine ⟨by simp, fun c hc ↦ ?_, floats.pointZero f h hpoint.1⟩
    rcases List.mem_append.mp hc with hc | hc
    · exact hchars c hc
    · rcases List.mem_cons.mp hc with rfl | hc
      · rfl
      · rw [List.mem_singleton.mp hc]
        rfl

/-- A character of a string, with its escape. -/
def escapeChar (c : Char) : List Char :=
  if c = '"' then ['\\', '"']
  else if c = '\\' then ['\\', '\\']
  else if c = '\n' then ['\\', 'n']
  else if c = '\r' then ['\\', 'r']
  else if c = '\t' then ['\\', 't']
  else [c]

/-- The characters of a string, with their escapes. -/
def pushEscaped (s : List Char) : List Char := s.flatMap escapeChar

/-- A string in quotes. -/
def writeQuoted (s : List Char) : List Char := '"' :: (pushEscaped s ++ ['"'])

mutual

/-- The EDN rendering of a value. -/
def writeEdn : Value → List Char
  | .nil => "nil".toList
  | .bool b => if b then "true".toList else "false".toList
  | .int i => showI64 i
  | .float f => fmtFloat floats f
  | .str s => writeQuoted s.toList
  | .keyword k => ':' :: k.toList
  | .list items => '[' :: (writeEdnItems true items ++ [']'])
  | .map pairs => '{' :: (writeEdnPairs true pairs ++ ['}'])

/-- The items of a vector, with a blank before each but the first. -/
def writeEdnItems (first : Bool) : List Value → List Char
  | [] => []
  | item :: rest => (if first then [] else [' ']) ++ writeEdn item ++ writeEdnItems false rest

/-- The pairs of a map, with a comma and a blank before each but the first. -/
def writeEdnPairs (first : Bool) : List (Value × Value) → List Char
  | [] => []
  | pair :: rest => (if first then [] else [',', ' ']) ++ writeEdnPair pair ++
    writeEdnPairs false rest

/-- A key and its value. -/
def writeEdnPair : Value × Value → List Char
  | (key, value) => writeEdn key ++ ' ' :: writeEdn value

end

/-- The characters of the items of a vector. -/
theorem mem_writeEdnItems {first : Bool} {items : List Value} {c : Char}
    (h : c ∈ writeEdnItems floats first items) :
    c = ' ' ∨ ∃ v ∈ items, c ∈ writeEdn floats v := by
  induction items generalizing first with
  | nil => cases h
  | cons v items ih =>
    rw [writeEdnItems, List.mem_append, List.mem_append] at h
    rcases h with (h | h) | h
    · cases first with
      | true => cases h
      | false => exact .inl (List.mem_singleton.mp h)
    · exact .inr ⟨v, List.mem_cons_self, h⟩
    · refine (ih h).imp_right ?_
      rintro ⟨w, hw, hc⟩
      exact ⟨w, List.mem_cons_of_mem _ hw, hc⟩

/-- The characters of the pairs of a map. -/
theorem mem_writeEdnPairs {first : Bool} {pairs : List (Value × Value)} {c : Char}
    (h : c ∈ writeEdnPairs floats first pairs) :
    c = ',' ∨ c = ' ' ∨ ∃ p ∈ pairs, c ∈ writeEdn floats p.1 ∨ c ∈ writeEdn floats p.2 := by
  induction pairs generalizing first with
  | nil => cases h
  | cons p pairs ih =>
    obtain ⟨k, v⟩ := p
    rw [writeEdnPairs, writeEdnPair, List.mem_append, List.mem_append, List.mem_append,
      List.mem_cons] at h
    rcases h with (h | h | rfl | h) | h
    · cases first with
      | true => cases h
      | false =>
        rcases List.mem_cons.mp h with rfl | h
        · exact .inl rfl
        · exact .inr (.inl (List.mem_singleton.mp h))
    · exact .inr (.inr ⟨_, List.mem_cons_self, .inl h⟩)
    · exact .inr (.inl rfl)
    · exact .inr (.inr ⟨_, List.mem_cons_self, .inr h⟩)
    · refine (ih h).imp_right (Or.imp_right ?_)
      rintro ⟨q, hq, hc⟩
      exact ⟨q, List.mem_cons_of_mem _ hq, hc⟩

/-- The JSON rendering of a map key. -/
def writeJsonKey : Value → List Char
  | .str s => writeQuoted s.toList
  | .keyword kw => '"' :: ':' :: (pushEscaped kw.toList ++ ['"'])
  | .int i => '"' :: (showI64 i ++ ['"'])
  | other => writeQuoted (writeEdn floats other)

mutual

/-- The JSON rendering of a value. -/
def writeJson : Value → List Char
  | .nil => "null".toList
  | .bool b => if b then "true".toList else "false".toList
  | .int i => showI64 i
  | .float f => fmtFloat floats f
  | .str s => writeQuoted s.toList
  | .keyword k => '"' :: ':' :: (pushEscaped k.toList ++ ['"'])
  | .list items => '[' :: (writeJsonItems true items ++ [']'])
  | .map pairs => '{' :: (writeJsonPairs true pairs ++ ['}'])

/-- The items of an array, with a comma before each but the first. -/
def writeJsonItems (first : Bool) : List Value → List Char
  | [] => []
  | item :: rest => (if first then [] else [',']) ++ writeJson item ++ writeJsonItems false rest

/-- The members of an object, with a comma before each but the first. -/
def writeJsonPairs (first : Bool) : List (Value × Value) → List Char
  | [] => []
  | pair :: rest => (if first then [] else [',']) ++ writeJsonPair pair ++ writeJsonPairs false rest

/-- A member of an object. -/
def writeJsonPair : Value × Value → List Char
  | (key, value) => writeJsonKey floats key ++ ':' :: writeJson value

end

/-- The keyword of a clock. -/
def clockKw : Clock → String
  | .virtual => "virtual"
  | .wall => "wall"

/-- The EDN and JSON map of an entry. -/
def entryToValue (e : OpEntry) : Value :=
  .map [(.keyword "index", .int e.index.toInt64), (.keyword "time", .int e.time.nanos),
    (.keyword "clock", .keyword (clockKw e.time.clock)),
    (.keyword "type", .keyword e.kind.keyword),
    (.keyword "process", .int e.process.id.toInt64), (.keyword "f", .keyword e.f.name),
    (.keyword "value", e.value)]

/-- A history in EDN: one operation map a line. -/
def History.toJepsenEdn (h : History) : List Char :=
  h.entries.flatMap fun e ↦ writeEdn floats (entryToValue e) ++ ['\n']

/-- A history in JSON: an array of operation objects. -/
def History.toJepsenJson (h : History) : List Char :=
  '[' :: (writeJsonItems floats true (h.entries.map entryToValue) ++ [']'])

end Propsim.Interchange
