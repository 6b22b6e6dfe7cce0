import Propsim.Foundation.Fallible
import Propsim.Interchange.EdnReader

/-!
# What the EDN reader reads

The values, the items of a vector and the pairs of a map that stand at a cursor, as a relation
between the cursor, the value and the cursor after it (`Reads`). The reader computes it
(`reads_iff`), each reading advances the cursor, and so no loop of the reader hangs.
-/

set_option autoImplicit false
set_option relaxedAutoImplicit false

namespace Propsim.Interchange.Edn

open Foundation

variable {floats : FloatText}

/-- What is read at a cursor: a value, the items up to a closing byte, or the pairs of a map. -/
inductive Form
  | value
  | items (close : UInt8)
  | pairs

/-- The bytes on which the reader of values branches. -/
def opensForm (b : UInt8) : Prop :=
  b = '{'.toUInt8 ∨ b = '['.toUInt8 ∨ b = '('.toUInt8 ∨ b = '"'.toUInt8 ∨ b = ':'.toUInt8

instance (b : UInt8) : Decidable (opensForm b) :=
  inferInstanceAs (Decidable (b = '{'.toUInt8 ∨ b = '['.toUInt8 ∨ b = '('.toUInt8 ∨
    b = '"'.toUInt8 ∨ b = ':'.toUInt8))

/-- The values that stand at a cursor, with the cursor after them. Items and pairs are collected in
a list and a map. -/
inductive Reads (floats : FloatText) : Form → List UInt8 → Value → List UInt8 → Prop
  | map {bytes rest tail : List UInt8} {v : Value} (h : skipWs bytes = '{'.toUInt8 :: rest)
      (hpairs : Reads floats .pairs rest v tail) : Reads floats .value bytes v tail
  | vector {bytes rest tail : List UInt8} {v : Value} (h : skipWs bytes = '['.toUInt8 :: rest)
      (hitems : Reads floats (.items ']'.toUInt8) rest v tail) : Reads floats .value bytes v tail
  | list {bytes rest tail : List UInt8} {v : Value} (h : skipWs bytes = '('.toUInt8 :: rest)
      (hitems : Reads floats (.items ')'.toUInt8) rest v tail) : Reads floats .value bytes v tail
  | string {bytes rest tail : List UInt8} {s : List Char} (h : skipWs bytes = '"'.toUInt8 :: rest)
      (hs : parseString rest [] = .ok (s, tail)) : Reads floats .value bytes (.str (.ofList s)) tail
  | keyword {bytes rest tail : List UInt8} {v : Value} (h : skipWs bytes = ':'.toUInt8 :: rest)
      (hk : parseKeyword rest = .ok (v, tail)) : Reads floats .value bytes v tail
  | atom {bytes rest tail : List UInt8} {b : UInt8} {v : Value} (h : skipWs bytes = b :: rest)
      (hb : ¬ opensForm b) (ha : parseAtom floats (b :: rest) = .ok (v, tail)) :
      Reads floats .value bytes v tail
  | endItems {bytes tail : List UInt8} {close : UInt8} (h : skipWs bytes = close :: tail) :
      Reads floats (.items close) bytes (.list []) tail
  | item {bytes rest mid tail : List UInt8} {close b : UInt8} {v : Value} {items : List Value}
      (h : skipWs bytes = b :: rest) (hb : b ≠ close)
      (hv : Reads floats .value (b :: rest) v mid)
      (hitems : Reads floats (.items close) mid (.list items) tail) :
      Reads floats (.items close) bytes (.list (v :: items)) tail
  | endPairs {bytes tail : List UInt8} (h : skipWs bytes = '}'.toUInt8 :: tail) :
      Reads floats .pairs bytes (.map []) tail
  | pair {bytes rest mid mid' tail : List UInt8} {b : UInt8} {k v : Value}
      {pairs : List (Value × Value)} (h : skipWs bytes = b :: rest) (hb : b ≠ '}'.toUInt8)
      (hk : Reads floats .value (b :: rest) k mid) (hv : Reads floats .value mid v mid')
      (hpairs : Reads floats .pairs mid' (.map pairs) tail) :
      Reads floats .pairs bytes (.map ((k, v) :: pairs)) tail

/-! ### Reading advances -/

theorem length_lt_of_parseString {bytes tail : List UInt8} {out s : List Char}
    (h : parseString bytes out = .ok (s, tail)) : tail.length < bytes.length := by
  fun_induction parseString bytes out with
  | case1 => cases h
  | case2 out rest =>
    obtain ⟨rfl, rfl⟩ := Prod.mk.inj (Except.ok.inj h)
    exact Nat.lt_succ_self _
  | case3 => cases h
  | case4 out other rest _ ih =>
    have hrest := ih h
    simp only [List.length_cons]
    omega
  | case5 => cases h
  | case6 out b rest _ _ ch rest' hnext ih => exact (ih h).trans (length_lt_of_nextChar hnext)

theorem parseKeyword_eq_ok {bytes tail : List UInt8} {v : Value}
    (h : parseKeyword bytes = .ok (v, tail)) : ∃ k : String, v = .keyword k ∧
      bytes.takeWhile (!isDelim ·) ≠ [] ∧ utf8 k.toList = bytes.takeWhile (!isDelim ·) ∧
      tail = bytes.dropWhile (!isDelim ·) := by
  unfold parseKeyword at h
  simp only at h
  split_ifs at h with htoken
  · cases h
  · obtain ⟨text, htext, heq⟩ := except_map_eq_ok.mp h
    obtain ⟨rfl, rfl⟩ := Prod.mk.inj heq
    refine ⟨.ofList text, rfl, htoken, ?_, rfl⟩
    rw [String.toList_ofList]
    exact utf8_of_token htext

theorem atomValue_nil : atomValue floats [] = fail "unrecognized token ``" := by
  simp [atomValue, parseI64, digitsValue, floats.parse_nil]

theorem parseAtom_eq_ok {bytes tail : List UInt8} {v : Value}
    (h : parseAtom floats bytes = .ok (v, tail)) :
    bytes.takeWhile (!isDelim ·) ≠ [] ∧ tail = bytes.dropWhile (!isDelim ·) := by
  obtain ⟨tok, htok, hrest⟩ := except_bind_eq_ok.mp h
  obtain ⟨value, hvalue, heq⟩ := except_bind_eq_ok.mp hrest
  obtain ⟨rfl, rfl⟩ := Prod.mk.inj (except_pure_eq_ok.mp heq)
  refine ⟨fun hnil ↦ ?_, rfl⟩
  have hempty := utf8_of_token htok
  rw [hnil] at hempty
  obtain rfl := utf8_injective (hempty.trans utf8_nil.symm)
  rw [atomValue_nil] at hvalue
  cases hvalue

theorem length_lt_of_parseAtom {bytes tail : List UInt8} {v : Value}
    (h : parseAtom floats bytes = .ok (v, tail)) : tail.length < bytes.length := by
  obtain ⟨htoken, rfl⟩ := parseAtom_eq_ok h
  exact length_dropWhile_lt htoken

/-- A form is read in fewer bytes than there are. -/
theorem Reads.length_lt {form : Form} {bytes tail : List UInt8} {v : Value}
    (h : Reads floats form bytes v tail) : tail.length < bytes.length := by
  induction h with
  | map h _ ih => exact ih.trans (length_lt_of_skipWs h)
  | vector h _ ih => exact ih.trans (length_lt_of_skipWs h)
  | list h _ ih => exact ih.trans (length_lt_of_skipWs h)
  | string h hs => exact (length_lt_of_parseString hs).trans (length_lt_of_skipWs h)
  | keyword h hk =>
    obtain ⟨k, -, htoken, -, rfl⟩ := parseKeyword_eq_ok hk
    exact (length_dropWhile_lt htoken).trans (length_lt_of_skipWs h)
  | atom h _ ha =>
    have hlt := length_lt_of_skipWs h
    have hatom := length_lt_of_parseAtom ha
    simp only [List.length_cons] at hatom
    omega
  | endItems h => exact length_lt_of_skipWs h
  | item h _ _ _ hv hitems =>
    have hlt := length_lt_of_skipWs h
    simp only [List.length_cons] at hv
    omega
  | endPairs h => exact length_lt_of_skipWs h
  | pair h _ _ _ _ hk hv hpairs =>
    have hlt := length_lt_of_skipWs h
    simp only [List.length_cons] at hk
    omega

/-! ### The reader computes the relation -/

/-- What the functions of the reader return at a cursor. The loops collect what they read behind
what they had. -/
def Parses (floats : FloatText) : Form → List UInt8 → Value → List UInt8 → Prop
  | .value, bytes, v, tail => parseValue floats bytes = .ok (v, tail)
  | .items close, bytes, v, tail => ∃ items, v = .list items ∧
      ∀ before, parseSeq floats close bytes before = .ok (.list (before ++ items), tail)
  | .pairs, bytes, v, tail => ∃ pairs, v = .map pairs ∧
      ∀ before, parseMap floats bytes before = .ok (.map (before ++ pairs), tail)

theorem parseValue_nil {bytes : List UInt8} (h : skipWs bytes = []) :
    parseValue floats bytes = fail "unexpected end of input" := by
  rw [parseValue]
  split
  · rfl
  · rename_i hcons
    cases h.symm.trans hcons

theorem parseSeq_nil {bytes : List UInt8} (h : skipWs bytes = []) (close : UInt8)
    (items : List Value) :
    parseSeq floats close bytes items = fail "unterminated list/vector" := by
  rw [parseSeq]
  split
  · rfl
  · rename_i hcons
    cases h.symm.trans hcons

theorem parseMap_nil {bytes : List UInt8} (h : skipWs bytes = [])
    (pairs : List (Value × Value)) : parseMap floats bytes pairs = fail "unterminated map" := by
  rw [parseMap]
  split
  · rfl
  · rename_i hcons
    cases h.symm.trans hcons

theorem parseValue_eq {bytes rest : List UInt8} {b : UInt8} (h : skipWs bytes = b :: rest) :
    parseValue floats bytes =
      if b = '{'.toUInt8 then parseMap floats rest []
      else if b = '['.toUInt8 then parseSeq floats ']'.toUInt8 rest []
      else if b = '('.toUInt8 then parseSeq floats ')'.toUInt8 rest []
      else if b = '"'.toUInt8 then
        (parseString rest []).map fun (s, rest) ↦ (.str (.ofList s), rest)
      else if b = ':'.toUInt8 then parseKeyword rest
      else parseAtom floats (b :: rest) := by
  rw [parseValue]
  split
  · rename_i hnil
    cases hnil.symm.trans h
  · rename_i hcons
    obtain ⟨rfl, rfl⟩ := List.cons.inj (hcons.symm.trans h)
    rfl

theorem parseSeq_eq {bytes rest : List UInt8} {b : UInt8} (h : skipWs bytes = b :: rest)
    (close : UInt8) (items : List Value) :
    parseSeq floats close bytes items =
      if b = close then .ok (.list items, rest)
      else match parseValue floats (b :: rest) with
        | .error e => .error e
        | .ok (v, mid) =>
          if mid.length < bytes.length then parseSeq floats close mid (items ++ [v])
          else .error .hang := by
  rw [parseSeq]
  split
  · rename_i hnil
    cases hnil.symm.trans h
  · rename_i hcons
    obtain ⟨rfl, rfl⟩ := List.cons.inj (hcons.symm.trans h)
    rfl

theorem parseMap_eq {bytes rest : List UInt8} {b : UInt8} (h : skipWs bytes = b :: rest)
    (pairs : List (Value × Value)) :
    parseMap floats bytes pairs =
      if b = '}'.toUInt8 then .ok (.map pairs, rest)
      else match parseValue floats (b :: rest) with
        | .error e => .error e
        | .ok (k, mid) =>
          if mid.length < bytes.length then
            match parseValue floats mid with
            | .error e => .error e
            | .ok (v, mid') =>
              if mid'.length < bytes.length then parseMap floats mid' (pairs ++ [(k, v)])
              else .error .hang
          else .error .hang := by
  rw [parseMap]
  split
  · rename_i hnil
    cases hnil.symm.trans h
  · rename_i hcons
    obtain ⟨rfl, rfl⟩ := List.cons.inj (hcons.symm.trans h)
    rfl

/-- What is read is returned. -/
theorem Reads.parses {form : Form} {bytes tail : List UInt8} {v : Value}
    (h : Reads floats form bytes v tail) : Parses floats form bytes v tail := by
  induction h with
  | map h _ ih =>
    obtain ⟨pairs, rfl, hparse⟩ := ih
    exact (parseValue_eq h).trans (hparse [])
  | vector h _ ih =>
    obtain ⟨items, rfl, hparse⟩ := ih
    exact (parseValue_eq h).trans (hparse [])
  | list h _ ih =>
    obtain ⟨items, rfl, hparse⟩ := ih
    exact (parseValue_eq h).trans (hparse [])
  | string h hs =>
    refine (parseValue_eq h).trans ?_
    rw [hs]
    rfl
  | keyword h hk => exact (parseValue_eq h).trans hk
  | atom h hb ha =>
    refine (parseValue_eq h).trans ?_
    simp only [opensForm, not_or] at hb
    rw [if_neg hb.1, if_neg hb.2.1, if_neg hb.2.2.1, if_neg hb.2.2.2.1, if_neg hb.2.2.2.2]
    exact ha
  | endItems h =>
    refine ⟨[], rfl, fun before ↦ ?_⟩
    rw [parseSeq_eq h, if_pos rfl, List.append_nil]
  | item h hb hv _ ihv ihitems =>
    obtain ⟨items, heq, hparse⟩ := ihitems
    obtain rfl := Value.list.inj heq
    refine ⟨_, rfl, fun before ↦ ?_⟩
    have hlt := hv.length_lt
    have hrest := length_lt_of_skipWs h
    simp only [List.length_cons] at hlt
    simp only [Parses] at ihv
    rw [parseSeq_eq h, if_neg hb, ihv]
    simp only
    rw [if_pos (by omega), hparse, List.append_assoc, List.singleton_append]
  | endPairs h =>
    refine ⟨[], rfl, fun before ↦ ?_⟩
    rw [parseMap_eq h, if_pos rfl, List.append_nil]
  | pair h hb hk hv _ ihk ihv ihpairs =>
    obtain ⟨pairs, heq, hparse⟩ := ihpairs
    obtain rfl := Value.map.inj heq
    refine ⟨_, rfl, fun before ↦ ?_⟩
    have hltk := hk.length_lt
    have hltv := hv.length_lt
    have hrest := length_lt_of_skipWs h
    simp only [List.length_cons] at hltk
    simp only [Parses] at ihk ihv
    rw [parseMap_eq h, if_neg hb, ihk]
    simp only
    rw [if_pos (by omega), ihv]
    simp only
    rw [if_pos (by omega), hparse, List.append_assoc, List.singleton_append]

/-- What is returned at cursors of at most a length is read. -/
structure ReadsUpTo (floats : FloatText) (n : ℕ) : Prop where
  value : ∀ bytes v tail, bytes.length ≤ n → parseValue floats bytes = .ok (v, tail) →
    Reads floats .value bytes v tail
  items : ∀ close bytes before v tail, bytes.length ≤ n →
    parseSeq floats close bytes before = .ok (v, tail) →
      ∃ items, v = .list (before ++ items) ∧ Reads floats (.items close) bytes (.list items) tail
  pairs : ∀ bytes before v tail, bytes.length ≤ n → parseMap floats bytes before = .ok (v, tail) →
    ∃ pairs, v = .map (before ++ pairs) ∧ Reads floats .pairs bytes (.map pairs) tail

theorem readsUpTo (floats : FloatText) (n : ℕ) : ReadsUpTo floats n := by
  induction n using Nat.strong_induction_on with
  | _ n ih =>
    have hvalue : ∀ bytes v tail, bytes.length ≤ n → parseValue floats bytes = .ok (v, tail) →
        Reads floats .value bytes v tail := by
      intro bytes v tail hle h
      cases hskip : skipWs bytes with
      | nil =>
        rw [parseValue_nil hskip] at h
        cases h
      | cons b rest =>
        have hlt := length_lt_of_skipWs hskip
        have hrest := ih rest.length (by omega)
        rw [parseValue_eq hskip] at h
        split_ifs at h with hmap hvector hlist hstring hkeyword
        · obtain ⟨pairs, rfl, hreads⟩ := hrest.pairs rest [] v tail le_rfl h
          exact .map (hmap ▸ hskip) hreads
        · obtain ⟨items, rfl, hreads⟩ := hrest.items _ rest [] v tail le_rfl h
          exact .vector (hvector ▸ hskip) hreads
        · obtain ⟨items, rfl, hreads⟩ := hrest.items _ rest [] v tail le_rfl h
          exact .list (hlist ▸ hskip) hreads
        · obtain ⟨⟨s, tail'⟩, hs, heq⟩ := except_map_eq_ok.mp h
          obtain ⟨rfl, rfl⟩ := Prod.mk.inj heq
          exact .string (hstring ▸ hskip) hs
        · exact .keyword (hkeyword ▸ hskip) h
        · refine .atom hskip ?_ h
          simp only [opensForm, not_or]
          exact ⟨hmap, hvector, hlist, hstring, hkeyword⟩
    refine ⟨hvalue, fun close bytes before v tail hle h ↦ ?_, fun bytes before v tail hle h ↦ ?_⟩
    · cases hskip : skipWs bytes with
      | nil =>
        rw [parseSeq_nil hskip] at h
        cases h
      | cons b rest =>
        have hlt := length_lt_of_skipWs hskip
        rw [parseSeq_eq hskip] at h
        split_ifs at h with hclose
        · obtain ⟨rfl, rfl⟩ := Prod.mk.inj (Except.ok.inj h)
          exact ⟨[], by rw [List.append_nil], .endItems (hclose ▸ hskip)⟩
        · split at h
          · cases h
          · rename_i v' mid hv
            split_ifs at h with hmid
            obtain ⟨items, rfl, hreads⟩ :=
              (ih mid.length (by omega)).items close mid (before ++ [v']) v tail le_rfl h
            refine ⟨v' :: items, by rw [List.append_assoc, List.singleton_append], ?_⟩
            exact .item hskip hclose (hvalue _ _ _ (by rw [List.length_cons]; omega) hv) hreads
    · cases hskip : skipWs bytes with
      | nil =>
        rw [parseMap_nil hskip] at h
        cases h
      | cons b rest =>
        have hlt := length_lt_of_skipWs hskip
        rw [parseMap_eq hskip] at h
        split_ifs at h with hclose
        · obtain ⟨rfl, rfl⟩ := Prod.mk.inj (Except.ok.inj h)
          exact ⟨[], by rw [List.append_nil], .endPairs (hclose ▸ hskip)⟩
        · split at h
          · cases h
          · rename_i k mid hk
            split_ifs at h with hmid
            split at h
            · cases h
            · rename_i v' mid' hv
              split_ifs at h with hmid'
              obtain ⟨pairs, rfl, hreads⟩ :=
                (ih mid'.length (by omega)).pairs mid' (before ++ [(k, v')]) v tail le_rfl h
              refine ⟨(k, v') :: pairs, by rw [List.append_assoc, List.singleton_append], ?_⟩
              exact .pair hskip hclose (hvalue _ _ _ (by rw [List.length_cons]; omega) hk)
                (hvalue _ _ _ (by omega) hv) hreads

/-- The reader computes the relation. -/
theorem reads_iff {form : Form} {bytes tail : List UInt8} {v : Value} :
    Reads floats form bytes v tail ↔ Parses floats form bytes v tail := by
  refine ⟨Reads.parses, fun h ↦ ?_⟩
  have hreads := readsUpTo floats bytes.length
  cases form with
  | value => exact hreads.value _ _ _ le_rfl h
  | items close =>
    obtain ⟨items, rfl, hparse⟩ := h
    obtain ⟨items', heq, hread⟩ := hreads.items _ _ [] _ _ le_rfl (hparse [])
    obtain rfl : items = items' := Value.list.inj heq
    exact hread
  | pairs =>
    obtain ⟨pairs, rfl, hparse⟩ := h
    obtain ⟨pairs', heq, hread⟩ := hreads.pairs _ [] _ _ le_rfl (hparse [])
    obtain rfl : pairs = pairs' := Value.map.inj heq
    exact hread

theorem parse_eq_wholeText (floats : FloatText) (s : List Char) :
    parse floats s = wholeText skipWs (fun rest ↦
        "trailing input at byte " ++ toString ((utf8 s).length - rest.length) ++ " ")
      (parseValue floats (skipWs (utf8 s))) := rfl

/-- A text is one value. -/
theorem parse_eq_ok_iff {s : List Char} {v : Value} :
    parse floats s = .ok v ↔
      ∃ tail, Reads floats .value (skipWs (utf8 s)) v tail ∧ skipWs tail = [] := by
  rw [parse_eq_wholeText, wholeText_eq_ok_iff]
  simp only [reads_iff, Parses]

end Propsim.Interchange.Edn
