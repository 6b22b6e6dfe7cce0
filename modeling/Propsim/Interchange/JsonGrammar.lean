import Propsim.Foundation.Fallible
import Propsim.Interchange.JsonReader

/-!
# What the JSON reader reads

The values, the items of an array and the members of an object that stand at a cursor, as for EDN
(`Reads`). A comma may stand before any item, member or closing byte, and more than one may.
-/

set_option autoImplicit false
set_option relaxedAutoImplicit false

namespace Propsim.Interchange.Json

open Foundation

variable {floats : FloatText}

/-- What is read at a cursor: a value, the items of an array, or the members of an object. -/
inductive Form
  | value
  | items
  | pairs

/-- The bytes with which a literal starts. -/
def opensLiteral (b : UInt8) : Prop := b = 't'.toUInt8 ∨ b = 'f'.toUInt8 ∨ b = 'n'.toUInt8

/-- The bytes on which the reader of values branches. -/
def opensForm (b : UInt8) : Prop :=
  b = '{'.toUInt8 ∨ b = '['.toUInt8 ∨ b = '"'.toUInt8 ∨ opensLiteral b

instance (b : UInt8) : Decidable (opensLiteral b) :=
  inferInstanceAs (Decidable (b = 't'.toUInt8 ∨ b = 'f'.toUInt8 ∨ b = 'n'.toUInt8))

instance (b : UInt8) : Decidable (opensForm b) :=
  inferInstanceAs (Decidable (b = '{'.toUInt8 ∨ b = '['.toUInt8 ∨ b = '"'.toUInt8 ∨
    opensLiteral b))

/-- The values that stand at a cursor, with the cursor after them. Items and members are collected
in a list and a map. -/
inductive Reads (floats : FloatText) : Form → List UInt8 → Value → List UInt8 → Prop
  | object {bytes rest tail : List UInt8} {v : Value} (h : skipWs bytes = '{'.toUInt8 :: rest)
      (hpairs : Reads floats .pairs rest v tail) : Reads floats .value bytes v tail
  | array {bytes rest tail : List UInt8} {v : Value} (h : skipWs bytes = '['.toUInt8 :: rest)
      (hitems : Reads floats .items rest v tail) : Reads floats .value bytes v tail
  | string {bytes rest tail : List UInt8} {s : List Char} (h : skipWs bytes = '"'.toUInt8 :: rest)
      (hs : parseString rest [] = .ok (s, tail)) : Reads floats .value bytes (strToValue s) tail
  | literal {bytes rest tail : List UInt8} {b : UInt8} {v : Value} (h : skipWs bytes = b :: rest)
      (hb : opensLiteral b) (hl : parseKeywordLiteral (b :: rest) = .ok (v, tail)) :
      Reads floats .value bytes v tail
  | number {bytes rest tail : List UInt8} {b : UInt8} {v : Value} (h : skipWs bytes = b :: rest)
      (hb : ¬ opensForm b) (hn : parseNumber floats (b :: rest) = .ok (v, tail)) :
      Reads floats .value bytes v tail
  | endItems {bytes tail : List UInt8} (h : skipWs bytes = ']'.toUInt8 :: tail) :
      Reads floats .items bytes (.list []) tail
  | itemComma {bytes rest tail : List UInt8} {v : Value} (h : skipWs bytes = ','.toUInt8 :: rest)
      (hitems : Reads floats .items rest v tail) : Reads floats .items bytes v tail
  | item {bytes rest mid tail : List UInt8} {b : UInt8} {v : Value} {items : List Value}
      (h : skipWs bytes = b :: rest) (hclose : b ≠ ']'.toUInt8) (hcomma : b ≠ ','.toUInt8)
      (hv : Reads floats .value (b :: rest) v mid)
      (hitems : Reads floats .items mid (.list items) tail) :
      Reads floats .items bytes (.list (v :: items)) tail
  | endPairs {bytes tail : List UInt8} (h : skipWs bytes = '}'.toUInt8 :: tail) :
      Reads floats .pairs bytes (.map []) tail
  | pairComma {bytes rest tail : List UInt8} {v : Value} (h : skipWs bytes = ','.toUInt8 :: rest)
      (hpairs : Reads floats .pairs rest v tail) : Reads floats .pairs bytes v tail
  | pair {bytes rest mid mid' mid'' tail : List UInt8} {key : List Char} {v : Value}
      {pairs : List (Value × Value)} (h : skipWs bytes = '"'.toUInt8 :: rest)
      (hk : parseString rest [] = .ok (key, mid)) (hcolon : skipWs mid = ':'.toUInt8 :: mid')
      (hv : Reads floats .value mid' v mid'')
      (hpairs : Reads floats .pairs mid'' (.map pairs) tail) :
      Reads floats .pairs bytes (.map ((strToValue key, v) :: pairs)) tail

/-! ### Reading advances -/

theorem length_lt_of_parseKeywordLiteral {bytes tail : List UInt8} {v : Value}
    (hne : bytes ≠ []) (h : parseKeywordLiteral bytes = .ok (v, tail)) :
    tail.length < bytes.length := by
  have hpos := List.length_pos_of_ne_nil hne
  unfold parseKeywordLiteral at h
  split_ifs at h
  case neg => cases h
  all_goals
    obtain ⟨-, rfl⟩ := Prod.mk.inj (Except.ok.inj h)
    rw [List.length_drop]
    omega

theorem numberValue_nil : numberValue floats [] = fail "invalid JSON number ``" := by
  simp [numberValue, parseI64, digitsValue, floats.parse_nil]

theorem length_lt_of_parseNumber {bytes tail : List UInt8} {v : Value}
    (h : parseNumber floats bytes = .ok (v, tail)) : tail.length < bytes.length := by
  obtain ⟨tok, htok, hrest⟩ := except_bind_eq_ok.mp h
  obtain ⟨value, hvalue, heq⟩ := except_bind_eq_ok.mp hrest
  obtain ⟨rfl, rfl⟩ := Prod.mk.inj (except_pure_eq_ok.mp heq)
  refine length_dropWhile_lt fun hnil ↦ ?_
  have hempty := utf8_of_token htok
  rw [hnil] at hempty
  obtain rfl := utf8_injective (hempty.trans utf8_nil.symm)
  rw [numberValue_nil] at hvalue
  cases hvalue

/-- A form is read in fewer bytes than there are. -/
theorem Reads.length_lt {form : Form} {bytes tail : List UInt8} {v : Value}
    (h : Reads floats form bytes v tail) : tail.length < bytes.length := by
  induction h with
  | object h _ ih => exact ih.trans (length_lt_of_skipWs h)
  | array h _ ih => exact ih.trans (length_lt_of_skipWs h)
  | string h hs => exact (length_lt_of_parseString hs).trans (length_lt_of_skipWs h)
  | literal h _ hl =>
    have hlt := length_lt_of_skipWs h
    have hliteral := length_lt_of_parseKeywordLiteral (List.cons_ne_nil _ _) hl
    simp only [List.length_cons] at hliteral
    omega
  | number h _ hn =>
    have hlt := length_lt_of_skipWs h
    have hnumber := length_lt_of_parseNumber hn
    simp only [List.length_cons] at hnumber
    omega
  | endItems h => exact length_lt_of_skipWs h
  | itemComma h _ ih => exact ih.trans (length_lt_of_skipWs h)
  | item h _ _ _ _ hv hitems =>
    have hlt := length_lt_of_skipWs h
    simp only [List.length_cons] at hv
    omega
  | endPairs h => exact length_lt_of_skipWs h
  | pairComma h _ ih => exact ih.trans (length_lt_of_skipWs h)
  | pair h hk hcolon _ _ hv hpairs =>
    have hlt := length_lt_of_skipWs h
    have hkey := length_lt_of_parseString hk
    have hmid := length_lt_of_skipWs hcolon
    omega

/-! ### The reader computes the relation -/

/-- What the functions of the reader return at a cursor. The loops collect what they read behind
what they had. -/
def Parses (floats : FloatText) : Form → List UInt8 → Value → List UInt8 → Prop
  | .value, bytes, v, tail => parseValue floats bytes = .ok (v, tail)
  | .items, bytes, v, tail => ∃ items, v = .list items ∧
      ∀ before, parseArray floats bytes before = .ok (.list (before ++ items), tail)
  | .pairs, bytes, v, tail => ∃ pairs, v = .map pairs ∧
      ∀ before, parseObject floats bytes before = .ok (.map (before ++ pairs), tail)

theorem parseValue_nil {bytes : List UInt8} (h : skipWs bytes = []) :
    parseValue floats bytes = fail "unexpected end of JSON" := by
  rw [parseValue]
  split
  · rfl
  · rename_i hcons
    cases h.symm.trans hcons

theorem parseArray_nil {bytes : List UInt8} (h : skipWs bytes = []) (items : List Value) :
    parseArray floats bytes items = fail "unterminated JSON array" := by
  rw [parseArray]
  split
  · rfl
  · rename_i hcons
    cases h.symm.trans hcons

theorem parseObject_nil {bytes : List UInt8} (h : skipWs bytes = [])
    (pairs : List (Value × Value)) :
    parseObject floats bytes pairs = fail "malformed JSON object" := by
  rw [parseObject]
  split
  · rfl
  · rename_i hcons
    cases h.symm.trans hcons

theorem parseValue_eq {bytes rest : List UInt8} {b : UInt8} (h : skipWs bytes = b :: rest) :
    parseValue floats bytes =
      if b = '{'.toUInt8 then parseObject floats rest []
      else if b = '['.toUInt8 then parseArray floats rest []
      else if b = '"'.toUInt8 then
        (parseString rest []).map fun (s, rest) ↦ (strToValue s, rest)
      else if opensLiteral b then parseKeywordLiteral (b :: rest)
      else parseNumber floats (b :: rest) := by
  rw [parseValue]
  split
  · rename_i hnil
    cases hnil.symm.trans h
  · rename_i hcons
    obtain ⟨rfl, rfl⟩ := List.cons.inj (hcons.symm.trans h)
    rfl

theorem parseArray_eq {bytes rest : List UInt8} {b : UInt8} (h : skipWs bytes = b :: rest)
    (items : List Value) :
    parseArray floats bytes items =
      if b = ']'.toUInt8 then .ok (.list items, rest)
      else if b = ','.toUInt8 then parseArray floats rest items
      else match parseValue floats (b :: rest) with
        | .error e => .error e
        | .ok (v, mid) =>
          if mid.length < bytes.length then parseArray floats mid (items ++ [v])
          else .error .hang := by
  rw [parseArray]
  split
  · rename_i hnil
    cases hnil.symm.trans h
  · rename_i hcons
    obtain ⟨rfl, rfl⟩ := List.cons.inj (hcons.symm.trans h)
    rfl

/-- What the loop over the members does after a key. -/
def parseMember (floats : FloatText) (bytes : List UInt8) (pairs : List (Value × Value))
    (key : List Char) (mid : List UInt8) : Except Stop (Value × List UInt8) :=
  match skipWs mid with
  | [] => fail "expected `:` after JSON key"
  | c :: mid' =>
    if c ≠ ':'.toUInt8 then fail "expected `:` after JSON key"
    else
      match parseValue floats mid' with
      | .error e => .error e
      | .ok (val, mid'') =>
        if mid''.length < bytes.length then
          parseObject floats mid'' (pairs ++ [(strToValue key, val)])
        else .error .hang

theorem parseObject_eq {bytes rest : List UInt8} {b : UInt8} (h : skipWs bytes = b :: rest)
    (pairs : List (Value × Value)) :
    parseObject floats bytes pairs =
      if b = '}'.toUInt8 then .ok (.map pairs, rest)
      else if b = ','.toUInt8 then parseObject floats rest pairs
      else if b = '"'.toUInt8 then
        match parseString rest [] with
        | .error e => .error e
        | .ok (key, mid) => parseMember floats bytes pairs key mid
      else fail "malformed JSON object" := by
  rw [parseObject]
  split
  · rename_i hnil
    cases hnil.symm.trans h
  · rename_i hcons
    obtain ⟨rfl, rfl⟩ := List.cons.inj (hcons.symm.trans h)
    refine if_congr Iff.rfl rfl (if_congr Iff.rfl rfl (if_congr Iff.rfl ?_ rfl))
    split
    · rename_i hs
      rw [hs]
    · rename_i key mid hs
      rw [hs]
      simp only [parseMember]
      split
      · rename_i hc
        rw [hc]
      · rename_i hc
        rw [hc]
        rfl

/-- What is read is returned. -/
theorem Reads.parses {form : Form} {bytes tail : List UInt8} {v : Value}
    (h : Reads floats form bytes v tail) : Parses floats form bytes v tail := by
  induction h with
  | object h _ ih =>
    obtain ⟨pairs, rfl, hparse⟩ := ih
    exact (parseValue_eq h).trans (hparse [])
  | array h _ ih =>
    obtain ⟨items, rfl, hparse⟩ := ih
    exact (parseValue_eq h).trans (hparse [])
  | string h hs =>
    refine (parseValue_eq h).trans ?_
    rw [hs]
    rfl
  | literal h hb hl =>
    refine (parseValue_eq h).trans ?_
    rcases hb with rfl | rfl | rfl <;> exact hl
  | number h hb hn =>
    refine (parseValue_eq h).trans ?_
    simp only [opensForm, not_or] at hb
    rw [if_neg hb.1, if_neg hb.2.1, if_neg hb.2.2.1, if_neg hb.2.2.2]
    exact hn
  | endItems h =>
    refine ⟨[], rfl, fun before ↦ ?_⟩
    rw [parseArray_eq h, if_pos rfl, List.append_nil]
  | itemComma h _ ih =>
    obtain ⟨items, rfl, hparse⟩ := ih
    exact ⟨items, rfl, fun before ↦ (parseArray_eq h before).trans (hparse before)⟩
  | item h hclose hcomma hv _ ihv ihitems =>
    obtain ⟨items, heq, hparse⟩ := ihitems
    obtain rfl := Value.list.inj heq
    refine ⟨_, rfl, fun before ↦ ?_⟩
    have hlt := hv.length_lt
    have hrest := length_lt_of_skipWs h
    simp only [List.length_cons] at hlt
    simp only [Parses] at ihv
    rw [parseArray_eq h, if_neg hclose, if_neg hcomma, ihv]
    simp only
    rw [if_pos (by omega), hparse, List.append_assoc, List.singleton_append]
  | endPairs h =>
    refine ⟨[], rfl, fun before ↦ ?_⟩
    rw [parseObject_eq h, if_pos rfl, List.append_nil]
  | pairComma h _ ih =>
    obtain ⟨pairs, rfl, hparse⟩ := ih
    exact ⟨pairs, rfl, fun before ↦ (parseObject_eq h before).trans (hparse before)⟩
  | pair h hk hcolon hv _ ihv ihpairs =>
    obtain ⟨pairs, heq, hparse⟩ := ihpairs
    obtain rfl := Value.map.inj heq
    refine ⟨_, rfl, fun before ↦ ?_⟩
    have hrest := length_lt_of_skipWs h
    have hkey := length_lt_of_parseString hk
    have hmid := length_lt_of_skipWs hcolon
    have hlt := hv.length_lt
    simp only [Parses] at ihv
    rw [parseObject_eq h, if_neg (by decide), if_neg (by decide), if_pos rfl, hk]
    simp only [parseMember, hcolon, ihv]
    rw [if_neg (not_not.mpr rfl), if_pos (by omega), hparse, List.append_assoc,
      List.singleton_append]

/-- What is returned at cursors of at most a length is read. -/
structure ReadsUpTo (floats : FloatText) (n : ℕ) : Prop where
  value : ∀ bytes v tail, bytes.length ≤ n → parseValue floats bytes = .ok (v, tail) →
    Reads floats .value bytes v tail
  items : ∀ bytes before v tail, bytes.length ≤ n →
    parseArray floats bytes before = .ok (v, tail) →
      ∃ items, v = .list (before ++ items) ∧ Reads floats .items bytes (.list items) tail
  pairs : ∀ bytes before v tail, bytes.length ≤ n →
    parseObject floats bytes before = .ok (v, tail) →
      ∃ pairs, v = .map (before ++ pairs) ∧ Reads floats .pairs bytes (.map pairs) tail

theorem readsUpTo (floats : FloatText) (n : ℕ) : ReadsUpTo floats n := by
  induction n using Nat.strong_induction_on with
  | _ n ih =>
    have hvalue : ∀ bytes v tail, bytes.length ≤ n → parseValue floats bytes = .ok (v, tail) →
        Reads floats .value bytes v tail := by
      intro bytes v tail hle h
      cases hskip : skipWs bytes with
      | nil =>
        rw [parseValue_nil hskip] at h
        cases h
      | cons b rest =>
        have hlt := length_lt_of_skipWs hskip
        have hrest := ih rest.length (by omega)
        rw [parseValue_eq hskip] at h
        split_ifs at h with hobject harray hstring hliteral
        · obtain ⟨pairs, rfl, hreads⟩ := hrest.pairs rest [] v tail le_rfl h
          exact .object (hobject ▸ hskip) hreads
        · obtain ⟨items, rfl, hreads⟩ := hrest.items rest [] v tail le_rfl h
          exact .array (harray ▸ hskip) hreads
        · obtain ⟨⟨s, tail'⟩, hs, heq⟩ := except_map_eq_ok.mp h
          obtain ⟨rfl, rfl⟩ := Prod.mk.inj heq
          exact .string (hstring ▸ hskip) hs
        · exact .literal hskip hliteral h
        · refine .number hskip ?_ h
          simp only [opensForm, not_or]
          exact ⟨hobject, harray, hstring, hliteral⟩
    refine ⟨hvalue, fun bytes before v tail hle h ↦ ?_, fun bytes before v tail hle h ↦ ?_⟩
    · cases hskip : skipWs bytes with
      | nil =>
        rw [parseArray_nil hskip] at h
        cases h
      | cons b rest =>
        have hlt := length_lt_of_skipWs hskip
        rw [parseArray_eq hskip] at h
        split_ifs at h with hclose hcomma
        · obtain ⟨rfl, rfl⟩ := Prod.mk.inj (Except.ok.inj h)
          exact ⟨[], by rw [List.append_nil], .endItems (hclose ▸ hskip)⟩
        · obtain ⟨items, rfl, hreads⟩ :=
            (ih rest.length (by omega)).items rest before v tail le_rfl h
          exact ⟨items, rfl, .itemComma (hcomma ▸ hskip) hreads⟩
        · split at h
          · cases h
          · rename_i v' mid hv
            split_ifs at h with hmid
            obtain ⟨items, rfl, hreads⟩ :=
              (ih mid.length (by omega)).items mid (before ++ [v']) v tail le_rfl h
            refine ⟨v' :: items, by rw [List.append_assoc, List.singleton_append], ?_⟩
            exact .item hskip hclose hcomma
              (hvalue _ _ _ (by rw [List.length_cons]; omega) hv) hreads
    · cases hskip : skipWs bytes with
      | nil =>
        rw [parseObject_nil hskip] at h
        cases h
      | cons b rest =>
        have hlt := length_lt_of_skipWs hskip
        rw [parseObject_eq hskip] at h
        split_ifs at h with hclose hcomma hquote
        · obtain ⟨rfl, rfl⟩ := Prod.mk.inj (Except.ok.inj h)
          exact ⟨[], by rw [List.append_nil], .endPairs (hclose ▸ hskip)⟩
        · obtain ⟨pairs, rfl, hreads⟩ :=
            (ih rest.length (by omega)).pairs rest before v tail le_rfl h
          exact ⟨pairs, rfl, .pairComma (hcomma ▸ hskip) hreads⟩
        · split at h
          · cases h
          · rename_i key mid hk
            have hkey := length_lt_of_parseString hk
            unfold parseMember at h
            split at h
            · cases h
            · rename_i c mid' hc
              have hmid := length_lt_of_skipWs hc
              split_ifs at h with hcolon
              · cases h
              · split at h
                · cases h
                · rename_i val mid'' hv
                  split_ifs at h with hlater
                  obtain ⟨pairs, rfl, hreads⟩ := (ih mid''.length (by omega)).pairs mid''
                    (before ++ [(strToValue key, val)]) v tail le_rfl h
                  refine ⟨(strToValue key, val) :: pairs,
                    by rw [List.append_assoc, List.singleton_append], ?_⟩
                  exact .pair (hquote ▸ hskip) hk (not_not.mp hcolon ▸ hc)
                    (hvalue _ _ _ (by omega) hv) hreads
        · cases h

/-- The reader computes the relation. -/
theorem reads_iff {form : Form} {bytes tail : List UInt8} {v : Value} :
    Reads floats form bytes v tail ↔ Parses floats form bytes v tail := by
  refine ⟨Reads.parses, fun h ↦ ?_⟩
  have hreads := readsUpTo floats bytes.length
  cases form with
  | value => exact hreads.value _ _ _ le_rfl h
  | items =>
    obtain ⟨items, rfl, hparse⟩ := h
    obtain ⟨items', heq, hread⟩ := hreads.items _ [] _ _ le_rfl (hparse [])
    obtain rfl : items = items' := Value.list.inj heq
    exact hread
  | pairs =>
    obtain ⟨pairs, rfl, hparse⟩ := h
    obtain ⟨pairs', heq, hread⟩ := hreads.pairs _ [] _ _ le_rfl (hparse [])
    obtain rfl : pairs = pairs' := Value.map.inj heq
    exact hread

theorem parse_eq_wholeText (floats : FloatText) (s : List Char) :
    parse floats s = wholeText skipWs (fun rest ↦
        "trailing JSON input at byte " ++ toString ((utf8 s).length - rest.length))
      (parseValue floats (skipWs (utf8 s))) := rfl

/-- A text is one value. -/
theorem parse_eq_ok_iff {s : List Char} {v : Value} :
    parse floats s = .ok v ↔
      ∃ tail, Reads floats .value (skipWs (utf8 s)) v tail ∧ skipWs tail = [] := by
  rw [parse_eq_wholeText, wholeText_eq_ok_iff]
  simp only [reads_iff, Parses]

end Propsim.Interchange.Json
