import Propsim.Interchange.EdnRoundTrip
import Propsim.Interchange.JsonGrammar

/-!
# JSON round trips

JSON has one type of strings for strings, keywords and keys. What is read back from the JSON text
of a value is its normal form (`Value.jsonNormal`), and nothing else is lost.
-/

set_option autoImplicit false
set_option relaxedAutoImplicit false

namespace Propsim.Interchange

open Foundation

/-- The normal form of a string: one that begins with a colon becomes the keyword of its
remainder. -/
def normalString (s : String) : Value :=
  match s.toList with
  | ':' :: rest => .keyword (.ofList rest)
  | _ => .str s

variable (floats : FloatText)

/-- The normal form of a map key: an integer becomes the string of its digits, and a key that is
neither a string nor a keyword becomes the string of its EDN text. -/
def Value.jsonNormalKey : Value → Value
  | .str s => normalString s
  | .keyword k => .keyword k
  | .int i => .str (.ofList (showI64 i))
  | other => .str (.ofList (writeEdn floats other))

mutual

/-- The normal form of a value. -/
def Value.jsonNormal : Value → Value
  | .str s => normalString s
  | .list items => .list (Value.jsonNormalItems items)
  | .map pairs => .map (Value.jsonNormalPairs pairs)
  | v => v

/-- The normal forms of the items of a vector. -/
def Value.jsonNormalItems : List Value → List Value
  | [] => []
  | v :: rest => Value.jsonNormal v :: Value.jsonNormalItems rest

/-- The normal forms of the pairs of a map. -/
def Value.jsonNormalPairs : List (Value × Value) → List (Value × Value)
  | [] => []
  | p :: rest => Value.jsonNormalPair p :: Value.jsonNormalPairs rest

/-- The normal form of a pair. -/
def Value.jsonNormalPair : Value × Value → Value × Value
  | (k, v) => (Value.jsonNormalKey floats k, Value.jsonNormal v)

end

/-- The normal form of a history: every value is in normal form. -/
def History.jsonNormal (h : History) : History :=
  ⟨h.entries.map fun e ↦ { e with value := e.value.jsonNormal floats }⟩

theorem Value.jsonNormalItems_eq (items : List Value) :
    Value.jsonNormalItems floats items = items.map (Value.jsonNormal floats) := by
  induction items with
  | nil => rfl
  | cons v items ih => rw [jsonNormalItems, ih, List.map_cons]

theorem Value.jsonNormalPairs_eq (pairs : List (Value × Value)) :
    Value.jsonNormalPairs floats pairs =
      pairs.map fun p ↦ (p.1.jsonNormalKey floats, p.2.jsonNormal floats) := by
  induction pairs with
  | nil => rfl
  | cons p pairs ih =>
    obtain ⟨k, v⟩ := p
    rw [jsonNormalPairs, jsonNormalPair, ih, List.map_cons]

/-- The map of an entry is in normal form but for its value. -/
theorem jsonNormal_entryToValue (e : OpEntry) :
    (entryToValue e).jsonNormal floats =
      entryToValue { e with value := e.value.jsonNormal floats } := by
  simp [entryToValue, Value.jsonNormal, Value.jsonNormalPairs, Value.jsonNormalPair,
    Value.jsonNormalKey]

/-! ### Keys -/

/-- The characters of a key, before they are escaped. -/
def jsonKeyText : Value → List Char
  | .str s => s.toList
  | .keyword k => ':' :: k.toList
  | .int i => showI64 i
  | other => writeEdn floats other

theorem escapeChar_of_isNumberChar {c : Char} (h : isNumberChar c) : escapeChar c = [c] := by
  have hascii := lt_of_isNumberChar h
  revert h
  exact forall_ascii (P := fun c ↦ isNumberChar c → escapeChar c = [c]) (by decide +kernel) hascii

theorem pushEscaped_number {text : List Char} (h : ∀ c ∈ text, isNumberChar c) :
    pushEscaped text = text := by
  induction text with
  | nil => rfl
  | cons c text ih =>
    rw [List.forall_mem_cons] at h
    have hcons : pushEscaped (c :: text) = escapeChar c ++ pushEscaped text := rfl
    rw [hcons, escapeChar_of_isNumberChar h.1, ih h.2, List.singleton_append]

/-- A key is a string. -/
theorem writeJsonKey_eq (k : Value) :
    writeJsonKey floats k = writeQuoted (jsonKeyText floats k) := by
  cases k with
  | int i =>
    rw [writeJsonKey, jsonKeyText, writeQuoted,
      pushEscaped_number fun c ↦ isNumberChar_of_mem_showI64]
  | _ => rfl

theorem strToValue_toList (s : String) : Json.strToValue s.toList = normalString s := by
  unfold normalString
  split
  · rename_i hcolon
    rw [hcolon, Json.strToValue]
  · rename_i hother
    unfold Json.strToValue
    split
    · rename_i hcolon
      exact absurd hcolon (hother _)
    · rw [String.ofList_toList]

theorem strToValue_of_head {s : List Char} (h : s.head? ≠ some ':') :
    Json.strToValue s = .str (.ofList s) := by
  unfold Json.strToValue
  split
  · exact absurd rfl h
  · rfl

/-- The text of a key is read as its normal form. -/
theorem strToValue_jsonKeyText (k : Value) :
    Json.strToValue (jsonKeyText floats k) = k.jsonNormalKey floats := by
  have hother {v : Value} (hv : ∀ k, v ≠ .keyword k) :
      Json.strToValue (writeEdn floats v) = .str (.ofList (writeEdn floats v)) := by
    obtain ⟨c, cs, heq, -, hcolon⟩ := Edn.exists_writeEdn_eq_cons floats v
    refine strToValue_of_head fun hhead ↦ ?_
    rw [heq, List.head?_cons] at hhead
    obtain ⟨k, hk⟩ := hcolon (Option.some.inj hhead)
    exact hv k hk
  cases k with
  | str s => exact strToValue_toList s
  | keyword k => rw [jsonKeyText, Json.strToValue, Value.jsonNormalKey, String.ofList_toList]
  | int i =>
    refine strToValue_of_head fun hhead ↦ ?_
    have hcolon := isNumberChar_of_mem_showI64 (List.mem_of_mem_head? hhead)
    exact absurd hcolon (by decide)
  | _ => exact hother (by simp)

namespace Json

variable {floats}

/-- A value that was written ends here. -/
def Follows (rest : List UInt8) : Prop :=
  ∀ b ∈ rest.head?, b = ','.toUInt8 ∨ b = ']'.toUInt8 ∨ b = '}'.toUInt8

theorem Follows.isBoundary {rest : List UInt8} (h : Follows rest) : isBoundary rest := by
  cases rest with
  | nil => rfl
  | cons b rest => rcases h b rfl with rfl | rfl | rfl <;> rfl

theorem Follows.not_isNumberByte {rest : List UInt8} (h : Follows rest) :
    ∀ b ∈ rest.head?, isNumberByte b = false := by
  intro b hb
  rcases h b hb with rfl | rfl | rfl <;> rfl

theorem follows_cons {b : UInt8} (h : b = ','.toUInt8 ∨ b = ']'.toUInt8 ∨ b = '}'.toUInt8)
    (rest : List UInt8) : Follows (b :: rest) := by
  rintro _ ⟨⟩
  exact h

/-! ### Strings -/

/-- A quoted string is its quote and what is read after it. -/
theorem utf8_writeQuoted_append (s : List Char) (rest : List UInt8) :
    ∃ bytes, utf8 (writeQuoted s) ++ rest = '"'.toUInt8 :: bytes ∧
      parseString bytes [] = .ok (s, rest) := by
  have hread := readsStrings.pushEscaped_append s rest []
  refine ⟨utf8 (pushEscaped s) ++ '"'.toUInt8 :: rest, ?_, hread⟩
  rw [writeQuoted, utf8_cons_ascii (by decide), utf8_append, utf8_cons_ascii (by decide), utf8_nil,
    List.cons_append, List.append_assoc, List.singleton_append]

/-! ### Values -/

theorem skipWs_head {b : UInt8} (h : isAsciiWhitespace b = false) (rest : List UInt8) :
    skipWs (b :: rest) = b :: rest := by
  rw [skipWs, List.dropWhile_cons, h]
  rfl

theorem isNumberByte_of_isNumberChar {c : Char} (h : isNumberChar c) :
    isNumberByte c.toUInt8 ∧ isAsciiWhitespace c.toUInt8 = false ∧ ¬ opensForm c.toUInt8 ∧
      c.toUInt8 ≠ ']'.toUInt8 ∧ c.toUInt8 ≠ ','.toUInt8 := by
  have hascii := lt_of_isNumberChar h
  revert h
  exact forall_ascii (P := fun c ↦ isNumberChar c → isNumberByte c.toUInt8 ∧
    isAsciiWhitespace c.toUInt8 = false ∧ ¬ opensForm c.toUInt8 ∧ c.toUInt8 ≠ ']'.toUInt8 ∧
    c.toUInt8 ≠ ','.toUInt8) (by decide +kernel) hascii

theorem isNumberByte_of_number {tok : List Char} (h : ∀ c ∈ tok, isNumberChar c) :
    ∀ b ∈ utf8 tok, isNumberByte b = true := by
  intro b hb
  obtain ⟨c, hc, hb⟩ := List.mem_flatMap.mp hb
  rw [utf8EncodeChar_ascii (lt_of_isNumberChar (h c hc)), List.mem_singleton] at hb
  rw [hb]
  exact (isNumberByte_of_isNumberChar (h c hc)).1

theorem parseNumber_token {tok : List Char} (htok : ∀ b ∈ utf8 tok, isNumberByte b = true)
    {rest : List UInt8} (hboundary : isBoundary rest)
    (hrest : ∀ b ∈ rest.head?, isNumberByte b = false) :
    parseNumber floats (utf8 tok ++ rest) = (numberValue floats tok).map fun v ↦ (v, rest) := by
  obtain ⟨htake, hdrop⟩ := takeWhile_token htok hrest
  rw [parseNumber, htake, hdrop, sliceOrPanic_eq_ok.mpr (slice_utf8 hboundary)]
  rfl

/-- The token of a number is read. -/
theorem reads_number {tok : List Char} {v : Value} (hne : tok ≠ [])
    (htok : ∀ c ∈ tok, isNumberChar c) (hvalue : numberValue floats tok = .ok v)
    {rest : List UInt8} (hrest : Follows rest) :
    Reads floats .value (utf8 tok ++ rest) v rest := by
  have hnumber : parseNumber floats (utf8 tok ++ rest) = .ok (v, rest) := by
    rw [parseNumber_token (isNumberByte_of_number htok) hrest.isBoundary hrest.not_isNumberByte,
      hvalue]
    rfl
  obtain ⟨c, cs, rfl⟩ := List.exists_cons_of_ne_nil hne
  obtain ⟨-, hspace, hopens, -⟩ := isNumberByte_of_isNumberChar (htok c List.mem_cons_self)
  rw [utf8_cons_ascii (lt_of_isNumberChar (htok c List.mem_cons_self)), List.cons_append]
    at hnumber ⊢
  exact .number (skipWs_head hspace _) hopens hnumber

theorem numberValue_showI64 (i : Int64) : numberValue floats (showI64 i) = .ok (.int i) := by
  rw [numberValue, parseI64_showI64]

theorem numberValue_fmtFloat {f : Binary64} (h : f.isFinite) :
    numberValue floats (fmtFloat floats f) = .ok (.float f) := by
  obtain ⟨hpoint, -, hparse⟩ := fmtFloat_finite floats h
  rw [numberValue, parseI64_eq_none hpoint (by decide) (by decide), hparse]

/-- The token of a literal is read. -/
theorem reads_literal {tok : List Char} {v : Value}
    (hliteral : (tok, v) = ("true".toList, .bool true) ∨ (tok, v) = ("false".toList, .bool false) ∨
      (tok, v) = ("null".toList, .nil)) (rest : List UInt8) :
    Reads floats .value (utf8 tok ++ rest) v rest := by
  rcases hliteral with heq | heq | heq <;> obtain ⟨rfl, rfl⟩ := Prod.mk.inj heq
  · exact .literal (b := 't'.toUInt8) rfl (by decide) rfl
  · exact .literal (b := 'f'.toUInt8) rfl (by decide) rfl
  · exact .literal (b := 'n'.toUInt8) rfl (by decide) rfl

/-- The token of a string is read. -/
theorem reads_writeQuoted (s : List Char) (rest : List UInt8) :
    Reads floats .value (utf8 (writeQuoted s) ++ rest) (strToValue s) rest := by
  obtain ⟨bytes, heq, hs⟩ := utf8_writeQuoted_append s rest
  rw [heq]
  exact .string rfl hs

/-- The cursor at the text of a value. -/
theorem exists_cursor_eq_cons {v : Value} (hfinite : v.FloatsFinite) (rest : List UInt8) :
    ∃ b tail, utf8 (writeJson floats v) ++ rest = b :: tail ∧ skipWs (b :: tail) = b :: tail ∧
      b ≠ ']'.toUInt8 ∧ b ≠ ','.toUInt8 := by
  have hnumber {tok : List Char} (hne : tok ≠ []) (htok : ∀ c ∈ tok, isNumberChar c) :
      ∃ b tail, utf8 tok ++ rest = b :: tail ∧ skipWs (b :: tail) = b :: tail ∧
        b ≠ ']'.toUInt8 ∧ b ≠ ','.toUInt8 := by
    obtain ⟨c, cs, rfl⟩ := List.exists_cons_of_ne_nil hne
    have hc := htok c List.mem_cons_self
    obtain ⟨-, hspace, -, hclose, hcomma⟩ := isNumberByte_of_isNumberChar hc
    refine ⟨c.toUInt8, utf8 cs ++ rest, ?_, skipWs_head hspace _, hclose, hcomma⟩
    rw [utf8_cons_ascii (lt_of_isNumberChar hc), List.cons_append]
  cases v with
  | nil => exact ⟨'n'.toUInt8, _, rfl, rfl, by decide, by decide⟩
  | bool b =>
    cases b with
    | true => exact ⟨'t'.toUInt8, _, rfl, rfl, by decide, by decide⟩
    | false => exact ⟨'f'.toUInt8, _, rfl, rfl, by decide, by decide⟩
  | int i => exact hnumber (showI64_ne_nil i) fun c ↦ isNumberChar_of_mem_showI64
  | float f =>
    obtain ⟨hpoint, hchars, -⟩ := fmtFloat_finite floats (hfinite f (by simp [Value.parts]))
    exact hnumber (List.ne_nil_of_mem hpoint) hchars
  | str s => exact ⟨'"'.toUInt8, _, rfl, rfl, by decide, by decide⟩
  | keyword k => exact ⟨'"'.toUInt8, _, rfl, rfl, by decide, by decide⟩
  | list items => exact ⟨'['.toUInt8, _, rfl, rfl, by decide, by decide⟩
  | map pairs => exact ⟨'{'.toUInt8, _, rfl, rfl, by decide, by decide⟩

/-- The items of an array are read when each of them is. -/
theorem reads_writeJsonItems {items : List Value} (hitems : ∀ v ∈ items, v.FloatsFinite ∧
      ∀ rest, Follows rest →
        Reads floats .value (utf8 (writeJson floats v) ++ rest) (v.jsonNormal floats) rest)
    (first : Bool) (rest : List UInt8) :
    Reads floats .items (utf8 (writeJsonItems floats first items) ++ ']'.toUInt8 :: rest)
      (.list (items.map (Value.jsonNormal floats))) rest := by
  induction items generalizing first with
  | nil => exact .endItems rfl
  | cons v items ih =>
    obtain ⟨⟨hfinite, hread⟩, hlater⟩ := List.forall_mem_cons.mp hitems
    have hfollows : Follows (utf8 (writeJsonItems floats false items) ++ ']'.toUInt8 :: rest) := by
      cases items with
      | nil => exact follows_cons (.inr (.inl rfl)) _
      | cons w items => exact follows_cons (.inl rfl) _
    obtain ⟨b, tail, hcursor, hskip, hclose, hcomma⟩ := @exists_cursor_eq_cons floats v
      hfinite (utf8 (writeJsonItems floats false items) ++ ']'.toUInt8 :: rest)
    have hvalue := hread _ hfollows
    rw [hcursor] at hvalue
    have hitem := Reads.item hskip hclose hcomma hvalue (ih hlater false)
    rw [writeJsonItems, utf8_append, utf8_append, List.append_assoc, List.append_assoc, hcursor]
    cases first with
    | true => exact hitem
    | false => exact .itemComma rfl hitem

/-- The members of an object are read when each of them is. -/
theorem reads_writeJsonPairs {pairs : List (Value × Value)}
    (hpairs : ∀ p ∈ pairs, ∀ rest, Follows rest →
      Reads floats .value (utf8 (writeJson floats p.2) ++ rest) (p.2.jsonNormal floats) rest)
    (first : Bool) (rest : List UInt8) :
    Reads floats .pairs (utf8 (writeJsonPairs floats first pairs) ++ '}'.toUInt8 :: rest)
      (.map (pairs.map fun p ↦ (p.1.jsonNormalKey floats, p.2.jsonNormal floats))) rest := by
  induction pairs generalizing first with
  | nil => exact .endPairs rfl
  | cons p pairs ih =>
    obtain ⟨k, v⟩ := p
    obtain ⟨hread, hlater⟩ := List.forall_mem_cons.mp hpairs
    have hfollows : Follows (utf8 (writeJsonPairs floats false pairs) ++ '}'.toUInt8 :: rest) := by
      cases pairs with
      | nil => exact follows_cons (.inr (.inr rfl)) _
      | cons w pairs => exact follows_cons (.inl rfl) _
    obtain ⟨bytes, hkey, hstring⟩ := utf8_writeQuoted_append (jsonKeyText floats k)
      (':'.toUInt8 :: (utf8 (writeJson floats v) ++
        (utf8 (writeJsonPairs floats false pairs) ++ '}'.toUInt8 :: rest)))
    have hpair : Reads floats .pairs ('"'.toUInt8 :: bytes) _ rest :=
      .pair rfl hstring rfl (hread _ hfollows) (ih hlater false)
    rw [strToValue_jsonKeyText] at hpair
    rw [writeJsonPairs, writeJsonPair, writeJsonKey_eq, utf8_append, utf8_append, utf8_append,
      utf8_cons_ascii (by decide), List.append_assoc, List.append_assoc, List.append_assoc,
      List.cons_append, hkey]
    cases first with
    | true => exact hpair
    | false => exact .pairComma rfl hpair

/-- The text of a value is read as its normal form. -/
theorem reads_writeJson (v : Value) (hfinite : v.FloatsFinite) (rest : List UInt8)
    (hrest : Follows rest) :
    Reads floats .value (utf8 (writeJson floats v) ++ rest) (v.jsonNormal floats) rest := by
  induction v using Value.induct generalizing rest with
  | nil => exact reads_literal (.inr (.inr rfl)) rest
  | bool b =>
    cases b with
    | true => exact reads_literal (.inl rfl) rest
    | false => exact reads_literal (.inr (.inl rfl)) rest
  | int i =>
    exact reads_number (showI64_ne_nil i) (fun c ↦ isNumberChar_of_mem_showI64)
      (numberValue_showI64 i) hrest
  | float f =>
    have hf : f.isFinite := hfinite f (by simp [Value.parts])
    obtain ⟨hpoint, hchars, -⟩ := fmtFloat_finite floats hf
    exact reads_number (List.ne_nil_of_mem hpoint) hchars (numberValue_fmtFloat hf) hrest
  | str s =>
    rw [Value.jsonNormal, ← strToValue_toList]
    exact reads_writeQuoted s.toList rest
  | keyword k =>
    have hread := @reads_writeQuoted floats (':' :: k.toList) rest
    rw [strToValue, String.ofList_toList] at hread
    exact hread
  | list items ih =>
    have hitems : ∀ v ∈ items, v.FloatsFinite ∧ ∀ rest, Follows rest →
        Reads floats .value (utf8 (writeJson floats v) ++ rest) (v.jsonNormal floats) rest :=
      fun v hv ↦ ⟨hfinite.of_list hv, ih v hv (hfinite.of_list hv)⟩
    rw [writeJson, utf8_cons_ascii (by decide), utf8_append, utf8_cons_ascii (by decide), utf8_nil,
      List.cons_append, List.append_assoc, List.singleton_append, Value.jsonNormal,
      Value.jsonNormalItems_eq]
    exact .array rfl (reads_writeJsonItems hitems true rest)
  | map pairs ih =>
    have hpairs : ∀ p ∈ pairs, ∀ rest, Follows rest →
        Reads floats .value (utf8 (writeJson floats p.2) ++ rest) (p.2.jsonNormal floats) rest :=
      fun p hp ↦ (ih p hp).2 (hfinite.of_map hp).2
    rw [writeJson, utf8_cons_ascii (by decide), utf8_append, utf8_cons_ascii (by decide), utf8_nil,
      List.cons_append, List.append_assoc, List.singleton_append, Value.jsonNormal,
      Value.jsonNormalPairs_eq]
    exact .object rfl (reads_writeJsonPairs hpairs true rest)

end Json

/-! ### Histories -/

variable {floats}

/-- A text that starts with a bracket and an object is JSON. -/
theorem looksLikeJson_toJepsenJson {h : History} (hne : h.entries ≠ []) :
    looksLikeJson (h.toJepsenJson floats) = true := by
  obtain ⟨_ | ⟨e, entries⟩⟩ := h
  · exact absurd rfl hne
  · rfl

/-- The text of a history is one array. -/
theorem parse_toJepsenJson {h : History} (hfinite : h.FloatsFinite) :
    Json.parse floats (h.toJepsenJson floats) =
      .ok (.list ((h.jsonNormal floats).entries.map entryToValue)) := by
  have hitems : ∀ v ∈ h.entries.map entryToValue, v.FloatsFinite ∧ ∀ rest, Json.Follows rest →
      Json.Reads floats .value (utf8 (writeJson floats v) ++ rest) (v.jsonNormal floats) rest := by
    intro v hv
    obtain ⟨e, he, rfl⟩ := List.mem_map.mp hv
    have hentry := entryToValue_floatsFinite (hfinite e he)
    exact ⟨hentry, Json.reads_writeJson _ hentry⟩
  have hread := Json.reads_writeJsonItems hitems true []
  have hnormal : (h.entries.map entryToValue).map (Value.jsonNormal floats) =
      (h.jsonNormal floats).entries.map entryToValue := by
    simp [History.jsonNormal, Function.comp_def, jsonNormal_entryToValue]
  rw [hnormal] at hread
  refine Json.parse_eq_ok_iff.mpr ⟨[], ?_, rfl⟩
  rw [History.toJepsenJson, utf8_cons_ascii (by decide), utf8_append, utf8_cons_ascii (by decide),
    utf8_nil]
  exact .array rfl hread

theorem fromJepsen_array {h : History} (hfinite : h.FloatsFinite) :
    fromJepsen floats (h.toJepsenJson floats) = .ok (h.jsonNormal floats) := by
  have htrim : trimStart (h.toJepsenJson floats) = h.toJepsenJson floats := rfl
  have hsequence : isSequence (h.toJepsenJson floats) = true := rfl
  have hentries : ((h.jsonNormal floats).entries.map entryToValue).mapM valueToEntry =
      .ok (h.jsonNormal floats).entries :=
    mapM_map_eq_ok fun e _ ↦ valueToEntry_entryToValue e
  by_cases hne : h.entries = []
  · -- An empty array has no brace, so it is read as an EDN vector.
    obtain ⟨entries⟩ := h
    obtain rfl : entries = [] := hne
    have hparse : Edn.parse floats ['[', ']'] = .ok (.list []) :=
      Edn.parse_eq_ok_iff.mpr ⟨[], .vector rfl (.endItems rfl), rfl⟩
    show fromJepsen floats ['[', ']'] = .ok ⟨[]⟩
    have htrim : trimStart ['[', ']'] = ['[', ']'] := rfl
    have hsequence : isSequence ['[', ']'] = true := rfl
    have hlooks : looksLikeJson ['[', ']'] = false := rfl
    simp only [fromJepsen, htrim, hsequence, hlooks]
    simp [hparse, historyOfValue, bind, Except.bind, Except.map, pure, Except.pure]
  · simp only [fromJepsen, htrim, hsequence, looksLikeJson_toJepsenJson hne]
    simp [parse_toJepsenJson hfinite, historyOfValue, hentries, bind, Except.bind, Except.map]

/-- A history is read back from its JSON text with every value in normal form, and so exactly the
histories in normal form are read back as they are. -/
theorem fromJepsen_toJepsenJson (floats : FloatText) (h : History) (hfinite : h.FloatsFinite) :
    fromJepsen floats (h.toJepsenJson floats) = .ok (h.jsonNormal floats) ∧
      (fromJepsen floats (h.toJepsenJson floats) = .ok h ↔ h.jsonNormal floats = h) := by
  refine ⟨fromJepsen_array hfinite, ?_⟩
  rw [fromJepsen_array hfinite, Except.ok.injEq]

/-- Strings that look like keywords, and keys of every kind. -/
def collidingHistory : History where
  entries := [⟨0, .virtualNanos 0, .invoke, ⟨7⟩, ⟨"a b"⟩,
    .map [(.str ":k", .str ":v"), (.int (-2), .float oneAndHalf), (.keyword "", .bool false),
      (.list [.str "q\"", .nil], .list [.keyword "x\n", .str ""])]⟩]

theorem collidingHistory_read :
    fromJepsen sampleFloats (collidingHistory.toJepsenJson sampleFloats) =
        .ok (collidingHistory.jsonNormal sampleFloats) ∧
      (fromJepsen sampleFloats (collidingHistory.toJepsenJson sampleFloats) =
        .ok collidingHistory ↔ collidingHistory.jsonNormal sampleFloats = collidingHistory) :=
  fromJepsen_toJepsenJson sampleFloats collidingHistory (by decide +kernel)

end Propsim.Interchange
