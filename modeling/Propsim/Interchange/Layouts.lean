import Propsim.Interchange.IntegerLiterals

/-!
# Layouts

An EDN text is a sequence of tokens with separators around and between them: white space, commas and
comments that a newline ends. Two words need a separator between them, other tokens need none. Every
layout of the tokens of a value is read as the value (`parse_of_isLayout`).
-/

set_option autoImplicit false
set_option relaxedAutoImplicit false

namespace Propsim.Interchange.Edn

open Foundation

variable {floats : FloatText}

/-- White space and commas. -/
def isBlank (c : Char) : Bool :=
  c == ' ' || c == '\t' || c == '\n' || c == '\x0c' || c == '\r' || c == ','

/-- What may stand between tokens: white space, commas, and comments that a newline ends. -/
inductive Separators : List Char → Prop
  | nil : Separators []
  | blank {c : Char} {rest : List Char} (hc : isBlank c) (h : Separators rest) :
      Separators (c :: rest)
  | comment {text rest : List Char} (htext : '\n' ∉ text) (h : Separators rest) :
      Separators (';' :: (text ++ '\n' :: rest))

/-- The tokens of EDN. A word is a keyword or an atom. -/
inductive Token
  | bracket (c : Char) (hc : c ∈ ['[', ']', '(', ')', '{', '}'])
  | word (text : List Char)
  | string (body : List Char)

/-- The characters of a token. -/
def Token.text : Token → List Char
  | .bracket c _ => [c]
  | .word text => text
  | .string body => '"' :: (body ++ ['"'])

/-- Words merge with words next to them. -/
def Token.isWord : Token → Bool
  | .word _ => true
  | _ => false

/-- What may stand between the quotes for the characters of a string: the characters themselves, but
for quotes and backslashes, and the escapes. -/
inductive SpellsString : List Char → List Char → Prop
  | nil : SpellsString [] []
  | char {c : Char} {s body : List Char} (hquote : c ≠ '"') (hslash : c ≠ '\\')
      (h : SpellsString s body) : SpellsString (c :: s) (c :: body)
  | escape {other c : Char} {s body : List Char}
      (hescape : (other, c) ∈ [('"', '"'), ('\\', '\\'), ('n', '\n'), ('r', '\r'), ('t', '\t')])
      (h : SpellsString s body) : SpellsString (c :: s) ('\\' :: other :: body)

/-- The tokens of values, one after another. There are none for floats. -/
inductive Spells : List Value → List Token → Prop
  | done : Spells [] []
  | nil {vs : List Value} {ts : List Token} (h : Spells vs ts) :
      Spells (.nil :: vs) (.word "nil".toList :: ts)
  | true {vs : List Value} {ts : List Token} (h : Spells vs ts) :
      Spells (.bool true :: vs) (.word "true".toList :: ts)
  | false {vs : List Value} {ts : List Token} (h : Spells vs ts) :
      Spells (.bool false :: vs) (.word "false".toList :: ts)
  | int {i : Int64} {text : List Char} {vs : List Value} {ts : List Token}
      (hint : IsInteger text i.toInt) (h : Spells vs ts) :
      Spells (.int i :: vs) (.word text :: ts)
  | str {s : String} {body : List Char} {vs : List Value} {ts : List Token}
      (hbody : SpellsString s.toList body) (h : Spells vs ts) :
      Spells (.str s :: vs) (.string body :: ts)
  | keyword {k : String} {vs : List Value} {ts : List Token} (h : Spells vs ts) :
      Spells (.keyword k :: vs) (.word (':' :: k.toList) :: ts)
  | vector {items vs : List Value} {its ts : List Token} (hitems : Spells items its)
      (h : Spells vs ts) : Spells (.list items :: vs)
        (.bracket '[' (by decide) :: (its ++ .bracket ']' (by decide) :: ts))
  | list {items vs : List Value} {its ts : List Token} (hitems : Spells items its)
      (h : Spells vs ts) : Spells (.list items :: vs)
        (.bracket '(' (by decide) :: (its ++ .bracket ')' (by decide) :: ts))
  | map {pairs : List (Value × Value)} {vs : List Value} {its ts : List Token}
      (hpairs : Spells (pairs.flatMap fun p ↦ [p.1, p.2]) its) (h : Spells vs ts) :
      Spells (.map pairs :: vs)
        (.bracket '{' (by decide) :: (its ++ .bracket '}' (by decide) :: ts))

/-- Tokens with separators around and between them. The flag tells whether they stand behind a
word. -/
inductive LaidOut : Bool → List Token → List Char → Prop
  | nil {word : Bool} {gap : List Char} (hgap : Separators gap) : LaidOut word [] gap
  | cons {word : Bool} {t : Token} {ts : List Token} {gap rest : List Char}
      (hgap : Separators gap) (hmerge : word → t.isWord → gap ≠ [])
      (hrest : LaidOut t.isWord ts rest) : LaidOut word (t :: ts) (gap ++ (t.text ++ rest))

/-- The text is a layout of the value. -/
def IsLayout (v : Value) (text : List Char) : Prop :=
  ∃ ts, Spells [v] ts ∧ LaidOut false ts text

/-! ### Separators -/

/-- A comment is skipped to its newline. -/
theorem skipFrom_comment {text : List Char} (htext : '\n' ∉ text) (rest : List UInt8) :
    skipFrom true (utf8 text ++ '\n'.toUInt8 :: rest) = skipFrom false rest := by
  have hbytes : '\n'.toUInt8 ∉ utf8 text := fun hmem ↦
    htext (mem_of_toUInt8_mem_utf8 (by decide) hmem)
  generalize utf8 text = bytes at hbytes
  induction bytes with
  | nil => rfl
  | cons b bytes ih =>
    rw [List.mem_cons, not_or] at hbytes
    have hb : (b != '\n'.toUInt8) = true := bne_iff_ne.mpr fun heq ↦ hbytes.1 heq.symm
    rw [List.cons_append, skipFrom, hb]
    exact ih hbytes.2

theorem lt_of_isBlank {c : Char} (h : isBlank c) : c.toNat < 128 := by
  simp only [isBlank, Bool.or_eq_true, beq_iff_eq] at h
  rcases h with ((((rfl | rfl) | rfl) | rfl) | rfl) | rfl <;> decide

theorem skips_of_isBlank {c : Char} (h : isBlank c) :
    (isAsciiWhitespace c.toUInt8 || c.toUInt8 == ','.toUInt8) = true := by
  simp only [isBlank, Bool.or_eq_true, beq_iff_eq] at h
  rcases h with ((((rfl | rfl) | rfl) | rfl) | rfl) | rfl <;> decide

/-- Separators are skipped. -/
theorem Separators.skipWs_eq {gap : List Char} (h : Separators gap) (rest : List UInt8) :
    skipWs (utf8 gap ++ rest) = skipWs rest := by
  induction h with
  | nil => rfl
  | blank hc _ ih =>
    rw [utf8_cons_ascii (lt_of_isBlank hc), List.cons_append, skipWs, skipFrom,
      if_pos (skips_of_isBlank hc)]
    exact ih
  | @comment text more htext _ ih =>
    rw [utf8_cons_ascii (by decide), utf8_append, utf8_cons_ascii (by decide), List.cons_append,
      List.append_assoc, List.cons_append, skipWs, skipFrom, if_neg (by decide),
      if_pos (by decide), skipFrom_comment htext]
    exact ih

/-- A token ends where a separator begins. -/
theorem Separators.follows {gap : List Char} (h : Separators gap) (hne : gap ≠ [])
    (rest : List UInt8) : Follows (utf8 gap ++ rest) := by
  cases h with
  | nil => exact absurd rfl hne
  | @blank c more hc _ =>
    have hdelim : isDelim c.toUInt8 := by
      have hskips := skips_of_isBlank hc
      simp only [isDelim]
      simp [hskips]
    rw [utf8_cons_ascii (lt_of_isBlank hc)]
    rintro b ⟨⟩
    exact hdelim
  | comment _ _ =>
    rw [utf8_cons_ascii (by decide)]
    rintro b ⟨⟩
    decide

/-- A word ends where the layout goes on. -/
theorem LaidOut.follows {ts : List Token} {text : List Char} (h : LaidOut true ts text) :
    Follows (utf8 text) := by
  cases h with
  | nil hgap =>
    by_cases hne : text = []
    · rw [hne]
      rintro b ⟨⟩
    · simpa using hgap.follows hne []
  | @cons _ t ts gap rest hgap hmerge _ =>
    rw [utf8_append]
    by_cases hne : gap = []
    · cases t with
      | bracket c hc =>
        subst hne
        obtain ⟨hascii, hdelim⟩ : c.toNat < 128 ∧ isDelim c.toUInt8 := by
          simp only [List.mem_cons, List.not_mem_nil, or_false] at hc
          rcases hc with rfl | rfl | rfl | rfl | rfl | rfl <;> decide
        rw [Token.text, utf8_nil, List.nil_append, List.singleton_append, utf8_cons_ascii hascii]
        rintro b ⟨⟩
        exact hdelim
      | word text => exact absurd hne (hmerge rfl rfl)
      | string body =>
        subst hne
        rw [Token.text, utf8_nil, List.nil_append, List.cons_append, utf8_cons_ascii (by decide)]
        rintro b ⟨⟩
        decide
    · exact hgap.follows hne _

/-! ### Strings -/

/-- The spelling of a string is read up to its closing quote. -/
theorem SpellsString.parseString_eq {s body : List Char} (h : SpellsString s body)
    (rest : List UInt8) (out : List Char) :
    parseString (utf8 body ++ '"'.toUInt8 :: rest) out = .ok (out ++ s, rest) := by
  induction h generalizing out with
  | nil =>
    rw [List.append_nil]
    exact parseString_quote rest out
  | char hquote hslash _ ih =>
    rw [utf8_cons, List.append_assoc, readsStrings.char_append hquote hslash, ih, List.append_assoc,
      List.singleton_append]
  | @escape other c s body hescape _ ih =>
    obtain ⟨hascii, hother⟩ : other.toNat < 128 ∧ escaped other.toUInt8 = c := by
      simp only [List.mem_cons, List.not_mem_nil, or_false, Prod.mk.injEq] at hescape
      rcases hescape with ⟨rfl, rfl⟩ | ⟨rfl, rfl⟩ | ⟨rfl, rfl⟩ | ⟨rfl, rfl⟩ | ⟨rfl, rfl⟩ <;> decide
    rw [utf8_cons_ascii (by decide), utf8_cons_ascii hascii, List.cons_append, List.cons_append,
      parseString_escape, hother, ih, List.append_assoc, List.singleton_append]

/-! ### Cursors -/

theorem skipWs_skipFrom (comment : Bool) (bytes : List UInt8) :
    skipWs (skipFrom comment bytes) = skipFrom comment bytes := by
  induction bytes generalizing comment with
  | nil => cases comment <;> rfl
  | cons b bytes ih =>
    cases comment with
    | true => exact ih _
    | false =>
      rw [skipFrom]
      split_ifs with hblank hcomment
      · exact ih _
      · exact ih _
      · rw [skipWs, skipFrom, if_neg hblank, if_neg hcomment]

/-- A value does not start with a closing byte. -/
theorem Reads.exists_skipWs_eq_cons {bytes tail : List UInt8} {v : Value}
    (h : Reads floats .value bytes v tail) : ∃ b rest, skipWs bytes = b :: rest ∧
      b ≠ ']'.toUInt8 ∧ b ≠ ')'.toUInt8 ∧ b ≠ '}'.toUInt8 := by
  cases h with
  | map h _ => exact ⟨_, _, h, by decide, by decide, by decide⟩
  | vector h _ => exact ⟨_, _, h, by decide, by decide, by decide⟩
  | list h _ => exact ⟨_, _, h, by decide, by decide, by decide⟩
  | string h _ => exact ⟨_, _, h, by decide, by decide, by decide⟩
  | keyword h _ => exact ⟨_, _, h, by decide, by decide, by decide⟩
  | @atom _ rest _ b _ h _ ha =>
    have hb : isDelim b = false := by
      obtain ⟨htoken, -⟩ := parseAtom_eq_ok ha
      by_contra hdelim
      rw [Bool.not_eq_false] at hdelim
      exact htoken (List.takeWhile_cons_of_neg (by simp [hdelim]))
    refine ⟨b, rest, h, ?_, ?_, ?_⟩ <;> (rintro rfl; exact absurd hb (by decide))

/-- A value is read at the cursor behind the separators. -/
theorem Reads.at_skipWs {bytes tail : List UInt8} {v : Value}
    (h : Reads floats .value bytes v tail) : Reads floats .value (skipWs bytes) v tail :=
  h.of_skipWs_eq (skipWs_skipFrom false bytes)

/-- Values are read one after another. -/
def ReadsAll (floats : FloatText) : List Value → List UInt8 → List UInt8 → Prop
  | [], bytes, tail => bytes = tail
  | v :: vs, bytes, tail => ∃ mid, Reads floats .value bytes v mid ∧ ReadsAll floats vs mid tail

/-- Values up to a closing byte are items. -/
theorem ReadsAll.items {close : UInt8} (hclose : close = ']'.toUInt8 ∨ close = ')'.toUInt8)
    {items : List Value} {bytes mid tail : List UInt8} (h : ReadsAll floats items bytes mid)
    (hend : skipWs mid = close :: tail) : Reads floats (.items close) bytes (.list items) tail := by
  induction items generalizing bytes with
  | nil =>
    obtain rfl := h
    exact .endItems hend
  | cons v items ih =>
    obtain ⟨mid', hv, hitems⟩ := h
    obtain ⟨b, rest, hskip, hbracket, hparen, -⟩ := hv.exists_skipWs_eq_cons
    refine .item hskip ?_ (hskip ▸ hv.at_skipWs) (ih hitems)
    rcases hclose with rfl | rfl
    · exact hbracket
    · exact hparen

/-- Keys and values up to a closing brace are pairs. -/
theorem ReadsAll.pairs {pairs : List (Value × Value)} {bytes mid tail : List UInt8}
    (h : ReadsAll floats (pairs.flatMap fun p ↦ [p.1, p.2]) bytes mid)
    (hend : skipWs mid = '}'.toUInt8 :: tail) : Reads floats .pairs bytes (.map pairs) tail := by
  induction pairs generalizing bytes with
  | nil =>
    obtain rfl := h
    exact .endPairs hend
  | cons p pairs ih =>
    obtain ⟨k, v⟩ := p
    obtain ⟨mid', hk, mid'', hv, hpairs⟩ := h
    obtain ⟨b, rest, hskip, -, -, hbrace⟩ := hk.exists_skipWs_eq_cons
    exact .pair hskip hbrace (hskip ▸ hk.at_skipWs) hv (ih hpairs)

/-! ### Layouts are read -/

/-- The cursor at the first token of a layout. -/
theorem LaidOut.skipWs_eq {word : Bool} {t : Token} {ts : List Token} {text : List Char}
    (h : LaidOut word (t :: ts) text) : ∃ rest, LaidOut t.isWord ts rest ∧
      skipWs (utf8 text) = skipWs (utf8 t.text ++ utf8 rest) := by
  cases h with
  | @cons _ _ _ gap rest hgap _ hrest =>
    refine ⟨rest, hrest, ?_⟩
    rw [utf8_append, hgap.skipWs_eq, utf8_append]

/-- The word of a value is read. -/
theorem LaidOut.reads_word {word : Bool} {tok text : List Char} {ts : List Token} {v : Value}
    (hread : ∀ rest, Follows rest → Reads floats .value (utf8 tok ++ rest) v rest)
    (h : LaidOut word (.word tok :: ts) text) :
    ∃ rest, LaidOut true ts rest ∧ Reads floats .value (utf8 text) v (utf8 rest) := by
  obtain ⟨rest, hrest, hskip⟩ := h.skipWs_eq
  exact ⟨rest, hrest, (hread _ hrest.follows).of_skipWs_eq hskip⟩

/-- The word of an atom is read. -/
theorem LaidOut.reads_atom {word : Bool} {tok text : List Char} {ts : List Token} {v : Value}
    (hne : tok ≠ []) (hcolon : tok.head? ≠ some ':') (hvalue : atomValue floats tok = .ok v)
    (htok : ∀ b ∈ utf8 tok, isDelim b = false) (h : LaidOut word (.word tok :: ts) text) :
    ∃ rest, LaidOut true ts rest ∧ Reads floats .value (utf8 text) v (utf8 rest) :=
  h.reads_word fun _ hrest ↦ Edn.reads_atom hne hcolon hvalue htok hrest

/-- The tokens of values are read as the values, and what is laid out behind them is left. -/
theorem Spells.readsAll {vs : List Value} {ts : List Token} (h : Spells vs ts)
    (hnames : ∀ v ∈ vs, v.KeywordsPlain) {word : Bool} {more : List Token} {text : List Char}
    (hlaid : LaidOut word (ts ++ more) text) : ∃ word' tail, LaidOut word' more tail ∧
      ReadsAll floats vs (utf8 text) (utf8 tail) := by
  induction h generalizing word more text with
  | done => exact ⟨word, text, hlaid, rfl⟩
  | nil _ ih =>
    obtain ⟨rest, hrest, hv⟩ := hlaid.reads_atom (by decide) (by decide) rfl
      (not_isDelim_of_word (by decide))
    obtain ⟨word', tail, htail, hvs⟩ := ih (List.forall_mem_cons.mp hnames).2 hrest
    exact ⟨word', tail, htail, _, hv, hvs⟩
  | true _ ih =>
    obtain ⟨rest, hrest, hv⟩ := hlaid.reads_atom (by decide) (by decide) rfl
      (not_isDelim_of_word (by decide))
    obtain ⟨word', tail, htail, hvs⟩ := ih (List.forall_mem_cons.mp hnames).2 hrest
    exact ⟨word', tail, htail, _, hv, hvs⟩
  | false _ ih =>
    obtain ⟨rest, hrest, hv⟩ := hlaid.reads_atom (by decide) (by decide) rfl
      (not_isDelim_of_word (by decide))
    obtain ⟨word', tail, htail, hvs⟩ := ih (List.forall_mem_cons.mp hnames).2 hrest
    exact ⟨word', tail, htail, _, hv, hvs⟩
  | @int i tok vs ts hint _ ih =>
    have hvalue : atomValue floats tok = .ok (.int i) := by
      rw [atomValue_integer hint, if_pos ⟨Int64.le_toInt i, Int64.toInt_lt i⟩, Int64.ofInt_toInt]
    obtain ⟨hcolon, htok⟩ := literal_token fun c hc ↦ .inl (hint.isIntegerChar c hc)
    obtain ⟨rest, hrest, hv⟩ := hlaid.reads_atom hint.ne_nil hcolon hvalue htok
    obtain ⟨word', tail, htail, hvs⟩ := ih (List.forall_mem_cons.mp hnames).2 hrest
    exact ⟨word', tail, htail, _, hv, hvs⟩
  | @str s body vs ts hbody _ ih =>
    obtain ⟨rest, hrest, hskip⟩ := hlaid.skipWs_eq
    have hv : Reads floats .value (utf8 (Token.string body).text ++ utf8 rest) (.str s)
        (utf8 rest) := by
      have hquoted := hbody.parseString_eq (utf8 rest) []
      have hread : Reads floats .value ('"'.toUInt8 :: (utf8 body ++ '"'.toUInt8 :: utf8 rest))
          (.str (.ofList s.toList)) (utf8 rest) := .string rfl hquoted
      rw [String.ofList_toList] at hread
      rw [Token.text, utf8_cons_ascii (by decide), utf8_append, utf8_cons_ascii (by decide),
        utf8_nil, List.cons_append, List.append_assoc, List.singleton_append]
      exact hread
    obtain ⟨word', tail, htail, hvs⟩ := ih (List.forall_mem_cons.mp hnames).2 hrest
    exact ⟨word', tail, htail, _, hv.of_skipWs_eq hskip, hvs⟩
  | @keyword k vs ts _ ih =>
    obtain ⟨hplain, hlater⟩ := List.forall_mem_cons.mp hnames
    have hread (rest : List UInt8) (hfollows : Follows rest) :
        Reads floats .value (utf8 (':' :: k.toList) ++ rest) (.keyword k) rest := by
      rw [utf8_cons_ascii (by decide), List.cons_append]
      exact .keyword rfl (parseKeyword_plain (hplain k (by simp [Value.parts])) hfollows)
    obtain ⟨rest, hrest, hv⟩ := hlaid.reads_word hread
    obtain ⟨word', tail, htail, hvs⟩ := ih hlater hrest
    exact ⟨word', tail, htail, _, hv, hvs⟩
  | @vector items vs its ts _ _ ihitems ih =>
    obtain ⟨hplain, hlater⟩ := List.forall_mem_cons.mp hnames
    rw [List.cons_append, List.append_assoc] at hlaid
    obtain ⟨rest, hrest, hskip⟩ := hlaid.skipWs_eq
    obtain ⟨word₁, mid, hmid, hitems⟩ := ihitems (fun v hv ↦ hplain.of_list hv) hrest
    obtain ⟨rest', hrest', hclose⟩ := hmid.skipWs_eq
    obtain ⟨word', tail, htail, hvs⟩ := ih hlater hrest'
    refine ⟨word', tail, htail, utf8 rest', .vector hskip (hitems.items (.inl rfl) hclose), hvs⟩
  | @list items vs its ts _ _ ihitems ih =>
    obtain ⟨hplain, hlater⟩ := List.forall_mem_cons.mp hnames
    rw [List.cons_append, List.append_assoc] at hlaid
    obtain ⟨rest, hrest, hskip⟩ := hlaid.skipWs_eq
    obtain ⟨word₁, mid, hmid, hitems⟩ := ihitems (fun v hv ↦ hplain.of_list hv) hrest
    obtain ⟨rest', hrest', hclose⟩ := hmid.skipWs_eq
    obtain ⟨word', tail, htail, hvs⟩ := ih hlater hrest'
    exact ⟨word', tail, htail, utf8 rest', .list hskip (hitems.items (.inr rfl) hclose), hvs⟩
  | @map pairs vs its ts _ _ ihpairs ih =>
    obtain ⟨hplain, hlater⟩ := List.forall_mem_cons.mp hnames
    rw [List.cons_append, List.append_assoc] at hlaid
    obtain ⟨rest, hrest, hskip⟩ := hlaid.skipWs_eq
    have hinner : ∀ v ∈ pairs.flatMap (fun p ↦ [p.1, p.2]), v.KeywordsPlain := fun v hv ↦ by
      obtain ⟨p, hp, hv⟩ := List.mem_flatMap.mp hv
      rcases List.mem_pair.mp hv with rfl | rfl
      · exact (hplain.of_map hp).1
      · exact (hplain.of_map hp).2
    obtain ⟨word₁, mid, hmid, hpairs⟩ := ihpairs hinner hrest
    obtain ⟨rest', hrest', hclose⟩ := hmid.skipWs_eq
    obtain ⟨word', tail, htail, hvs⟩ := ih hlater hrest'
    exact ⟨word', tail, htail, utf8 rest', .map hskip (hpairs.pairs hclose), hvs⟩

/-- Every layout of a value whose keywords are plain is read as the value. -/
theorem parse_of_isLayout (floats : FloatText) (v : Value) (text : List Char)
    (hnames : v.KeywordsPlain) (h : IsLayout v text) : parse floats text = .ok v := by
  obtain ⟨ts, hspells, hlaid⟩ := h
  rw [← List.append_nil ts] at hlaid
  obtain ⟨word, tail, htail, mid, hv, rfl⟩ :=
    hspells.readsAll (List.forall_mem_singleton.mpr hnames) hlaid
  refine parse_eq_ok_iff.mpr ⟨utf8 tail, hv.at_skipWs, ?_⟩
  cases htail with
  | nil hgap =>
    rw [← List.append_nil (utf8 tail), hgap.skipWs_eq]
    rfl

/-! ### The layout of the writer -/

/-- No float is nested in the value. -/
def FloatFree (v : Value) : Prop := ∀ f, .float f ∉ v.parts

theorem FloatFree.of_list {items : List Value} (h : FloatFree (.list items)) {v : Value}
    (hv : v ∈ items) : FloatFree v := fun f hf ↦
  h f (Value.mem_parts_list.mpr (.inr ⟨v, hv, hf⟩))

theorem FloatFree.of_map {pairs : List (Value × Value)} (h : FloatFree (.map pairs))
    {p : Value × Value} (hp : p ∈ pairs) : FloatFree p.1 ∧ FloatFree p.2 :=
  ⟨fun f hf ↦ h f (Value.mem_parts_map.mpr (.inr ⟨p, hp, .inl hf⟩)),
    fun f hf ↦ h f (Value.mem_parts_map.mpr (.inr ⟨p, hp, .inr hf⟩))⟩

/-- The text lays out the tokens of the value, whatever stands around it. -/
def LaysOut (v : Value) (text : List Char) : Prop :=
  ∃ its, (∀ vs ts, Spells vs ts → Spells (v :: vs) (its ++ ts)) ∧
    ∀ (word : Bool) gap ts rest, Separators gap → (word → gap ≠ []) →
      (∀ word', LaidOut word' ts rest) → LaidOut word (its ++ ts) (gap ++ (text ++ rest))

theorem laysOut_token {v : Value} {t : Token}
    (h : ∀ vs ts, Spells vs ts → Spells (v :: vs) (t :: ts)) : LaysOut v t.text :=
  ⟨[t], h, fun _ _ _ _ hgap hmerge hrest ↦ .cons hgap (fun hword _ ↦ hmerge hword) (hrest _)⟩

/-- Brackets around what is laid out between them. -/
theorem laysOut_wrapped {v : Value} {opener closer : Token} (hopener : opener.isWord = false)
    (hcloser : closer.isWord = false) {its : List Token} {body : List Char}
    (hspells : ∀ vs ts, Spells vs ts → Spells (v :: vs) (opener :: (its ++ closer :: ts)))
    (hbody : ∀ ts rest, (∀ word, LaidOut word ts rest) →
      LaidOut false (its ++ ts) (body ++ rest)) :
    LaysOut v (opener.text ++ (body ++ closer.text)) := by
  have hassoc (ts : List Token) : opener :: (its ++ [closer]) ++ ts =
      opener :: (its ++ closer :: ts) := by simp
  refine ⟨opener :: (its ++ [closer]), fun vs ts hvs ↦ ?_, fun word gap ts rest hgap _ hrest ↦ ?_⟩
  · rw [hassoc]
    exact hspells vs ts hvs
  · have hclose (word' : Bool) : LaidOut word' (closer :: ts) ([] ++ (closer.text ++ rest)) :=
      .cons .nil (fun _ hword ↦ by rw [hcloser] at hword; cases hword) (hrest _)
    rw [hassoc, List.append_assoc, List.append_assoc]
    refine .cons hgap (fun _ hword ↦ by rw [hopener] at hword; cases hword) ?_
    rw [hopener]
    exact hbody _ _ hclose

theorem laysOut_items {items : List Value} (h : ∀ v ∈ items, LaysOut v (writeEdn floats v)) :
    ∃ its, Spells items its ∧ ∀ (first word : Bool) ts rest, (word → first = false) →
      (∀ word', LaidOut word' ts rest) →
        LaidOut word (its ++ ts) (writeEdnItems floats first items ++ rest) := by
  induction items with
  | nil => exact ⟨[], .done, fun _ word _ _ _ hrest ↦ hrest word⟩
  | cons v items ih =>
    obtain ⟨⟨iv, hspells, hlay⟩, hitems⟩ := List.forall_mem_cons.mp h
    obtain ⟨its, hits, hlater⟩ := ih hitems
    refine ⟨iv ++ its, hspells items its hits, fun first word ts rest hfirst hrest ↦ ?_⟩
    have hnext (word' : Bool) : LaidOut word' (its ++ ts)
        (writeEdnItems floats false items ++ rest) :=
      hlater false word' ts rest (fun _ ↦ rfl) hrest
    rw [writeEdnItems, List.append_assoc, List.append_assoc, List.append_assoc]
    cases first with
    | true => exact hlay word [] _ _ .nil (fun hword ↦ absurd (hfirst hword) (by decide)) hnext
    | false => exact hlay word [' '] _ _ (.blank rfl .nil) (fun _ ↦ by decide) hnext

theorem laysOut_pairs {pairs : List (Value × Value)}
    (h : ∀ p ∈ pairs, LaysOut p.1 (writeEdn floats p.1) ∧ LaysOut p.2 (writeEdn floats p.2)) :
    ∃ its, Spells (pairs.flatMap fun p ↦ [p.1, p.2]) its ∧
      ∀ (first word : Bool) ts rest, (word → first = false) → (∀ word', LaidOut word' ts rest) →
        LaidOut word (its ++ ts) (writeEdnPairs floats first pairs ++ rest) := by
  induction pairs with
  | nil => exact ⟨[], .done, fun _ word _ _ _ hrest ↦ hrest word⟩
  | cons p pairs ih =>
    obtain ⟨k, v⟩ := p
    obtain ⟨⟨⟨ik, hspellsk, hlayk⟩, iv, hspellsv, hlayv⟩, hpairs⟩ := List.forall_mem_cons.mp h
    obtain ⟨its, hits, hlater⟩ := ih hpairs
    refine ⟨ik ++ (iv ++ its), hspellsk _ _ (hspellsv _ its hits),
      fun first word ts rest hfirst hrest ↦ ?_⟩
    have hnext (word' : Bool) : LaidOut word' (its ++ ts)
        (writeEdnPairs floats false pairs ++ rest) :=
      hlater false word' ts rest (fun _ ↦ rfl) hrest
    have hvalue (word' : Bool) : LaidOut word' (iv ++ (its ++ ts))
        ([' '] ++ (writeEdn floats v ++ (writeEdnPairs floats false pairs ++ rest))) :=
      hlayv word' [' '] _ _ (.blank rfl .nil) (fun _ ↦ by decide) hnext
    rw [writeEdnPairs, writeEdnPair, List.append_assoc, List.append_assoc, List.append_assoc,
      List.append_assoc, List.append_assoc, List.cons_append]
    cases first with
    | true => exact hlayk word [] _ _ .nil (fun hword ↦ absurd (hfirst hword) (by decide)) hvalue
    | false =>
      exact hlayk word [',', ' '] _ _ (.blank rfl (.blank rfl .nil)) (fun _ ↦ by decide) hvalue

theorem spellsString_pushEscaped (s : List Char) : SpellsString s (pushEscaped s) := by
  induction s with
  | nil => exact .nil
  | cons c s ih =>
    have hcons : pushEscaped (c :: s) = escapeChar c ++ pushEscaped s := rfl
    rw [hcons, escapeChar]
    split_ifs with hquote hslash hn hr ht
    · exact .escape (by rw [hquote]; decide) ih
    · exact .escape (by rw [hslash]; decide) ih
    · exact .escape (by rw [hn]; decide) ih
    · exact .escape (by rw [hr]; decide) ih
    · exact .escape (by rw [ht]; decide) ih
    · exact .char hquote hslash ih

/-- The writer lays out the tokens of a value. -/
theorem laysOut_writeEdn (v : Value) (hfree : FloatFree v) : LaysOut v (writeEdn floats v) := by
  induction v using Value.induct with
  | nil =>
    rw [writeEdn]
    exact laysOut_token fun _ _ ↦ .nil
  | bool b =>
    rw [writeEdn]
    cases b with
    | true => exact laysOut_token fun _ _ ↦ .true
    | false => exact laysOut_token fun _ _ ↦ .false
  | int i =>
    rw [writeEdn]
    exact laysOut_token fun _ _ ↦ .int (isInteger_showI64 i)
  | float f => exact absurd (by simp [Value.parts]) (hfree f)
  | str s =>
    rw [writeEdn]
    exact laysOut_token fun _ _ ↦ .str (spellsString_pushEscaped s.toList)
  | keyword k =>
    rw [writeEdn]
    exact laysOut_token fun _ _ ↦ .keyword
  | list items ih =>
    obtain ⟨its, hits, hlay⟩ := laysOut_items fun v hv ↦ ih v hv (hfree.of_list hv)
    rw [writeEdn]
    exact laysOut_wrapped rfl rfl (fun _ _ ↦ .vector hits)
      fun ts rest ↦ hlay true false ts rest (by decide)
  | map pairs ih =>
    obtain ⟨its, hits, hlay⟩ := laysOut_pairs fun p hp ↦
      ⟨(ih p hp).1 (hfree.of_map hp).1, (ih p hp).2 (hfree.of_map hp).2⟩
    rw [writeEdn]
    exact laysOut_wrapped rfl rfl (fun _ _ ↦ .map hits)
      fun ts rest ↦ hlay true false ts rest (by decide)

/-- What the writer writes is a layout. -/
theorem isLayout_writeEdn {v : Value} (hfree : FloatFree v) : IsLayout v (writeEdn floats v) := by
  obtain ⟨ts, hspells, hlay⟩ := @laysOut_writeEdn floats v hfree
  refine ⟨ts, ?_, ?_⟩
  · simpa using hspells [] [] .done
  · simpa using hlay false [] [] [] .nil (by decide) fun _ ↦ .nil .nil

/-- A value with a list, a vector, a signed integer and an escape. -/
def laidOutValue : Value :=
  .list [.keyword "a", .list [.int 1, .int (-2)], .str "k\"", .nil]

theorem isLayout_laidOutValue :
    IsLayout laidOutValue " ;c\n(:a[+1,-2]\t\"k\\\"\"nil)".toList := by
  have hone : IsInteger ['+', '1'] (Int64.toInt 1) :=
    .plus (by decide) (List.all_eq_true.mp (by decide))
  have htwo : IsInteger ['-', '2'] (Int64.toInt (-2)) :=
    .minus (by decide) (List.all_eq_true.mp (by decide))
  have hstring : SpellsString "k\"".toList ['k', '\\', '"'] :=
    .char (by decide) (by decide) (.escape (by decide) .nil)
  have hcomment : Separators " ;c\n".toList :=
    .blank rfl (@Separators.comment ['c'] [] (by decide) .nil)
  have hcomma : Separators [','] := .blank rfl .nil
  have htab : Separators ['\t'] := .blank rfl .nil
  have hnil {ts : List Token} {rest : List Char} {t : Token} {word : Bool}
      (hmerge : (word && t.isWord) = false) (h : LaidOut t.isWord ts rest) :
      LaidOut word (t :: ts) (t.text ++ rest) :=
    .cons .nil (fun hword ht ↦ by rw [hword, ht] at hmerge; cases hmerge) h
  refine ⟨_, .list (.keyword (.vector (.int hone (.int htwo .done)) (.str hstring (.nil .done))))
    .done, ?_⟩
  exact .cons hcomment (by decide) (hnil rfl (hnil rfl (hnil rfl (.cons hcomma (by decide)
    (hnil rfl (.cons htab (by decide) (hnil rfl (hnil rfl (.nil .nil)))))))))

theorem parse_laidOutValue :
    parse sampleFloats " ;c\n(:a[+1,-2]\t\"k\\\"\"nil)".toList = .ok laidOutValue :=
  parse_of_isLayout sampleFloats laidOutValue _ (by decide +kernel) isLayout_laidOutValue

end Propsim.Interchange.Edn
