import Propsim.Interchange.EdnGrammar
import Propsim.Interchange.Jepsen

/-!
# The EDN round trip

What the EDN writer writes is read back, as long as keywords and function names are plain and floats
are finite. The text of a value ends with the value or at a delimiter, so the reader of tokens
stops there (`Follows`).
-/

set_option autoImplicit false
set_option relaxedAutoImplicit false

namespace Propsim.Interchange

open Foundation

/-- A name that the EDN writer can write: it is not empty and has no delimiter byte. -/
def PlainName (name : String) : Prop :=
  name ≠ "" ∧ ∀ b ∈ utf8 name.toList, Edn.isDelim b = false

/-- Every keyword nested in a value is plain. -/
def Value.KeywordsPlain (v : Value) : Prop := ∀ k, .keyword k ∈ v.parts → PlainName k

/-- Every float nested in a value is finite. -/
def Value.FloatsFinite (v : Value) : Prop := ∀ f, .float f ∈ v.parts → f.isFinite

/-- Every keyword and function name of a history is plain. -/
def History.NamesPlain (h : History) : Prop :=
  ∀ e ∈ h.entries, PlainName e.f.name ∧ e.value.KeywordsPlain

/-- Every float of a history is finite. -/
def History.FloatsFinite (h : History) : Prop := ∀ e ∈ h.entries, e.value.FloatsFinite

instance (name : String) : Decidable (PlainName name) :=
  decidable_of_iff (name ≠ "" ∧ (utf8 name.toList).all (!Edn.isDelim ·)) (by simp [PlainName])

instance (v : Value) : Decidable v.KeywordsPlain :=
  decidable_of_iff ((v.parts.all fun w ↦
    match w with | .keyword k => decide (PlainName k) | _ => true) = true) (by
    refine List.all_eq_true.trans ⟨fun h k hk ↦ of_decide_eq_true (h _ hk), fun h w hw ↦ ?_⟩
    cases w with
    | keyword k => exact decide_eq_true (h k hw)
    | _ => rfl)

instance (v : Value) : Decidable v.FloatsFinite :=
  decidable_of_iff ((v.parts.all fun w ↦
    match w with | .float f => f.isFinite | _ => true) = true) (by
    refine List.all_eq_true.trans ⟨fun h f hf ↦ h _ hf, fun h w hw ↦ ?_⟩
    cases w with
    | float f => exact h f hw
    | _ => rfl)

instance (h : History) : Decidable h.NamesPlain :=
  inferInstanceAs (Decidable (∀ e ∈ h.entries, PlainName e.f.name ∧ e.value.KeywordsPlain))

instance (h : History) : Decidable h.FloatsFinite :=
  inferInstanceAs (Decidable (∀ e ∈ h.entries, e.value.FloatsFinite))

theorem Value.KeywordsPlain.of_list {items : List Value} (h : (Value.list items).KeywordsPlain)
    {v : Value} (hv : v ∈ items) : v.KeywordsPlain := fun k hk ↦
  h k (Value.mem_parts_list.mpr (.inr ⟨v, hv, hk⟩))

theorem Value.KeywordsPlain.of_map {pairs : List (Value × Value)}
    (h : (Value.map pairs).KeywordsPlain) {p : Value × Value} (hp : p ∈ pairs) :
    p.1.KeywordsPlain ∧ p.2.KeywordsPlain :=
  ⟨fun k hk ↦ h k (Value.mem_parts_map.mpr (.inr ⟨p, hp, .inl hk⟩)),
    fun k hk ↦ h k (Value.mem_parts_map.mpr (.inr ⟨p, hp, .inr hk⟩))⟩

theorem Value.FloatsFinite.of_list {items : List Value} (h : (Value.list items).FloatsFinite)
    {v : Value} (hv : v ∈ items) : v.FloatsFinite := fun f hf ↦
  h f (Value.mem_parts_list.mpr (.inr ⟨v, hv, hf⟩))

theorem Value.FloatsFinite.of_map {pairs : List (Value × Value)}
    (h : (Value.map pairs).FloatsFinite) {p : Value × Value} (hp : p ∈ pairs) :
    p.1.FloatsFinite ∧ p.2.FloatsFinite :=
  ⟨fun f hf ↦ h f (Value.mem_parts_map.mpr (.inr ⟨p, hp, .inl hf⟩)),
    fun f hf ↦ h f (Value.mem_parts_map.mpr (.inr ⟨p, hp, .inr hf⟩))⟩

namespace Edn

variable {floats : FloatText}

/-- A token ends here. -/
def Follows (rest : List UInt8) : Prop := ∀ b ∈ rest.head?, isDelim b

theorem lt_of_isDelim (b : UInt8) : isDelim b → b < 0x80 := by
  revert b
  exact forall_byte (by decide +kernel)

theorem Follows.isBoundary {rest : List UInt8} (h : Follows rest) : isBoundary rest := by
  cases rest with
  | nil => rfl
  | cons b rest =>
    have hlt := lt_of_isDelim b (h b rfl)
    simp [Foundation.isBoundary, hlt]

/-! ### Tokens -/

/-- A token without delimiters is delimited by what follows. -/
theorem token_eq {text : List Char} {rest : List UInt8} (hrest : Follows rest)
    (htext : ∀ b ∈ utf8 text, isDelim b = false) :
    (utf8 text ++ rest).takeWhile (!isDelim ·) = utf8 text ∧
      (utf8 text ++ rest).dropWhile (!isDelim ·) = rest :=
  takeWhile_token (fun b hb ↦ by rw [htext b hb]; rfl) (fun b hb ↦ by rw [hrest b hb]; rfl)

theorem parseKeyword_plain {name : String} (hname : PlainName name) {rest : List UInt8}
    (hrest : Follows rest) :
    parseKeyword (utf8 name.toList ++ rest) = .ok (.keyword name, rest) := by
  obtain ⟨htake, hdrop⟩ := token_eq hrest hname.2
  have hne : utf8 name.toList ≠ [] := fun hnil ↦
    hname.1 (String.toList_eq_nil_iff.mp (utf8_injective (hnil.trans utf8_nil.symm)))
  simp only [parseKeyword, htake, hdrop]
  rw [if_neg hne, sliceOrPanic_eq_ok.mpr (slice_utf8 hrest.isBoundary)]
  rw [Except.map, String.ofList_toList]

theorem parseAtom_token {tok : List Char} (htok : ∀ b ∈ utf8 tok, isDelim b = false)
    {rest : List UInt8} (hrest : Follows rest) :
    parseAtom floats (utf8 tok ++ rest) = (atomValue floats tok).map fun v ↦ (v, rest) := by
  obtain ⟨htake, hdrop⟩ := token_eq hrest htok
  simp only [parseAtom, htake, hdrop]
  rw [sliceOrPanic_eq_ok.mpr (slice_utf8 hrest.isBoundary)]
  rfl

theorem not_isDelim_of_word {tok : List Char} (h : (utf8 tok).all (!isDelim ·)) :
    ∀ b ∈ utf8 tok, isDelim b = false := by
  simpa using h

theorem not_isDelim_of_numberChar {c : Char} (h : isNumberChar c) :
    ∀ b ∈ String.utf8EncodeChar c, isDelim b = false := by
  have hascii := lt_of_isNumberChar h
  rw [utf8EncodeChar_ascii hascii, List.forall_mem_singleton]
  revert h
  exact forall_ascii (P := fun c ↦ isNumberChar c → isDelim c.toUInt8 = false)
    (by decide +kernel) hascii

/-- The token of a number. -/
theorem not_isDelim_of_number {tok : List Char} (h : ∀ c ∈ tok, isNumberChar c) :
    ∀ b ∈ utf8 tok, isDelim b = false := by
  intro b hb
  obtain ⟨c, hc, hb⟩ := List.mem_flatMap.mp hb
  exact not_isDelim_of_numberChar (h c hc) b hb

theorem atomValue_showI64 (i : Int64) : atomValue floats (showI64 i) = .ok (.int i) := by
  rw [atomValue_number fun c hc ↦ isAlpha_of_isNumberChar (isNumberChar_of_mem_showI64 hc),
    parseI64_showI64]

theorem atomValue_fmtFloat {f : Binary64} (h : f.isFinite) :
    atomValue floats (fmtFloat floats f) = .ok (.float f) := by
  obtain ⟨hpoint, hchars, hparse⟩ := fmtFloat_finite floats h
  rw [atomValue_number fun c hc ↦ isAlpha_of_isNumberChar (hchars c hc),
    parseI64_eq_none hpoint (by decide) (by decide), hparse]

/-! ### Values -/

/-- The characters with which the text of a value begins. -/
def isHead (c : Char) : Bool :=
  isNumberChar c || c == 'n' || c == 't' || c == 'f' || c == '"' || c == ':' || c == '[' || c == '{'

theorem lt_of_isHead {c : Char} (h : isHead c) : c.toNat < 128 := by
  simp only [isHead, Bool.or_eq_true, beq_iff_eq] at h
  rcases h with ((((((h | rfl) | rfl) | rfl) | rfl) | rfl) | rfl) | rfl
  · exact lt_of_isNumberChar h
  all_goals decide

theorem isHead_of_isNumberChar {c : Char} (h : isNumberChar c) : isHead c := by
  simp [isHead, h]

/-- The text of a value begins with one of them, and only the text of a keyword with a colon. -/
theorem exists_writeEdn_eq_cons (floats : FloatText) (v : Value) :
    ∃ c cs, writeEdn floats v = c :: cs ∧ isHead c ∧ (c = ':' → ∃ k, v = .keyword k) := by
  have hnumber {tok : List Char} (hne : tok ≠ []) (htok : ∀ c ∈ tok, isNumberChar c) :
      ∃ c cs, tok = c :: cs ∧ isHead c ∧ (c = ':' → ∃ k, v = .keyword k) := by
    obtain ⟨c, cs, rfl⟩ := List.exists_cons_of_ne_nil hne
    have hc := htok c List.mem_cons_self
    refine ⟨c, cs, rfl, isHead_of_isNumberChar hc, fun hcolon ↦ ?_⟩
    rw [hcolon] at hc
    exact absurd hc (by decide)
  have hword {text : List Char} (c : Char) (cs : List Char) (htext : text = c :: cs)
      (hhead : isHead c) (hcolon : c ≠ ':') :
      ∃ c cs, text = c :: cs ∧ isHead c ∧ (c = ':' → ∃ k, v = .keyword k) :=
    ⟨c, cs, htext, hhead, fun heq ↦ absurd heq hcolon⟩
  cases v with
  | nil => exact hword 'n' ['i', 'l'] (by rw [writeEdn]; decide) (by decide) (by decide)
  | bool b => cases b <;> exact hword _ _ rfl (by decide) (by decide)
  | int i => exact hnumber (showI64_ne_nil i) fun c ↦ isNumberChar_of_mem_showI64
  | float f =>
    by_cases hf : f.isFinite
    · obtain ⟨hpoint, hchars, -⟩ := fmtFloat_finite floats hf
      exact hnumber (List.ne_nil_of_mem hpoint) hchars
    · exact hword 'n' ['i', 'l'] (by rw [writeEdn, fmtFloat, if_neg hf]; decide)
        (by decide) (by decide)
  | keyword k => exact ⟨':', k.toList, by rw [writeEdn], by decide, fun _ ↦ ⟨k, rfl⟩⟩
  | str s => exact hword _ _ rfl (by decide) (by decide)
  | list items => exact hword _ _ rfl (by decide) (by decide)
  | map pairs => exact hword _ _ rfl (by decide) (by decide)

theorem skipWs_head {c : Char} (h : isHead c) (rest : List UInt8) :
    skipWs (c.toUInt8 :: rest) = c.toUInt8 :: rest := by
  have hlt := lt_of_isHead h
  have hskip : isAsciiWhitespace c.toUInt8 = false ∧ c.toUInt8 ≠ ','.toUInt8 ∧
      c.toUInt8 ≠ ';'.toUInt8 := by
    revert h
    exact forall_ascii (P := fun c ↦ isHead c → isAsciiWhitespace c.toUInt8 = false ∧
      c.toUInt8 ≠ ','.toUInt8 ∧ c.toUInt8 ≠ ';'.toUInt8) (by decide +kernel) hlt
  simp [skipWs, skipFrom, hskip]

theorem ne_close_of_isHead {c : Char} (h : isHead c) : c.toUInt8 ≠ ']'.toUInt8 ∧
    c.toUInt8 ≠ ')'.toUInt8 ∧ c.toUInt8 ≠ '}'.toUInt8 := by
  have hlt := lt_of_isHead h
  revert h
  exact forall_ascii (P := fun c ↦ isHead c → c.toUInt8 ≠ ']'.toUInt8 ∧
    c.toUInt8 ≠ ')'.toUInt8 ∧ c.toUInt8 ≠ '}'.toUInt8) (by decide +kernel) hlt

/-- The cursor at the text of a value. -/
theorem exists_cursor_eq_cons (floats : FloatText) (v : Value) (rest : List UInt8) :
    ∃ b tail, utf8 (writeEdn floats v) ++ rest = b :: tail ∧ skipWs (b :: tail) = b :: tail ∧
      b ≠ ']'.toUInt8 ∧ b ≠ ')'.toUInt8 ∧ b ≠ '}'.toUInt8 := by
  obtain ⟨c, cs, heq, hhead, -⟩ := exists_writeEdn_eq_cons floats v
  refine ⟨c.toUInt8, utf8 cs ++ rest, ?_, skipWs_head hhead _, ne_close_of_isHead hhead⟩
  rw [heq, utf8_cons_ascii (lt_of_isHead hhead), List.cons_append]

/-- The reader of values skips white space first. -/
theorem Reads.of_skipWs_eq {bytes bytes' tail : List UInt8} {v : Value}
    (h : Reads floats .value bytes v tail) (hskip : skipWs bytes' = skipWs bytes) :
    Reads floats .value bytes' v tail := by
  cases h with
  | map h hpairs => exact .map (hskip.trans h) hpairs
  | vector h hitems => exact .vector (hskip.trans h) hitems
  | list h hitems => exact .list (hskip.trans h) hitems
  | string h hs => exact .string (hskip.trans h) hs
  | keyword h hk => exact .keyword (hskip.trans h) hk
  | atom h hb ha => exact .atom (hskip.trans h) hb ha

/-- A byte that can be in a token is not skipped, and only a colon opens another form. -/
theorem head_token {b : UInt8} (h : isDelim b = false) (rest : List UInt8) :
    skipWs (b :: rest) = b :: rest ∧ (opensForm b → b = ':'.toUInt8) := by
  simp only [isDelim, Bool.or_eq_false_iff, beq_eq_false_iff_ne] at h
  obtain ⟨⟨⟨⟨⟨⟨⟨⟨⟨hspace, hcomma⟩, hbrace⟩, -⟩, hbracket⟩, -⟩, hparen⟩, -⟩, hquote⟩, hcomment⟩ := h
  refine ⟨by simp [skipWs, skipFrom, hspace, hcomma, hcomment], fun hopens ↦ ?_⟩
  simpa [opensForm, hbrace, hbracket, hparen, hquote] using hopens

/-- The cursor at a token that is no keyword. -/
theorem exists_token_eq_cons {tok : List Char} (hne : tok ≠ []) (hcolon : tok.head? ≠ some ':')
    (htok : ∀ b ∈ utf8 tok, isDelim b = false) : ∃ b bytes, utf8 tok = b :: bytes ∧
      ¬ opensForm b ∧ ∀ rest, skipWs (b :: rest) = b :: rest := by
  obtain ⟨c, cs, rfl⟩ := List.exists_cons_of_ne_nil hne
  obtain ⟨b, bs, heq, hhead⟩ := exists_utf8EncodeChar_eq_cons c
  have hcursor : utf8 (c :: cs) = b :: (bs ++ utf8 cs) := by
    rw [utf8_cons, heq, List.cons_append]
  have hb : isDelim b = false := htok b (by rw [hcursor]; exact List.mem_cons_self)
  refine ⟨b, bs ++ utf8 cs, hcursor, fun hform ↦ hcolon ?_, fun rest ↦ (head_token hb rest).1⟩
  rw [List.head?_cons, hhead ':' (by decide) ((head_token hb []).2 hform)]

/-- The token of an atom is read. -/
theorem reads_atom {tok : List Char} {v : Value} (hne : tok ≠ []) (hcolon : tok.head? ≠ some ':')
    (hvalue : atomValue floats tok = .ok v) (htok : ∀ b ∈ utf8 tok, isDelim b = false)
    {rest : List UInt8} (hrest : Follows rest) :
    Reads floats .value (utf8 tok ++ rest) v rest := by
  obtain ⟨b, bytes, hcursor, hopens, hskip⟩ := exists_token_eq_cons hne hcolon htok
  have hatom : parseAtom floats (utf8 tok ++ rest) = .ok (v, rest) := by
    rw [parseAtom_token htok hrest, hvalue]
    rfl
  rw [hcursor, List.cons_append] at hatom ⊢
  exact .atom (hskip _) hopens hatom

/-- The items of a vector are read when each of them is. -/
theorem reads_writeEdnItems {items : List Value} (hitems : ∀ v ∈ items, ∀ rest, Follows rest →
    Reads floats .value (utf8 (writeEdn floats v) ++ rest) v rest) (first : Bool)
    (rest : List UInt8) :
    Reads floats (.items ']'.toUInt8)
      (utf8 (writeEdnItems floats first items) ++ ']'.toUInt8 :: rest) (.list items) rest := by
  induction items generalizing first with
  | nil => exact .endItems rfl
  | cons v items ih =>
    rw [List.forall_mem_cons] at hitems
    have hlater := ih hitems.2 false
    have hfollows : Follows (utf8 (writeEdnItems floats false items) ++ ']'.toUInt8 :: rest) := by
      cases items with
      | nil => exact fun b hb ↦ by rw [← Option.some.inj hb]; decide
      | cons w items => exact fun b hb ↦ by rw [← Option.some.inj hb]; decide
    obtain ⟨b, tail, hcursor, hskip, hclose, -, -⟩ := exists_cursor_eq_cons floats v
      (utf8 (writeEdnItems floats false items) ++ ']'.toUInt8 :: rest)
    have hread := hitems.1 _ hfollows
    rw [hcursor] at hread
    refine .item ?_ hclose hread hlater
    rw [writeEdnItems, utf8_append, utf8_append, List.append_assoc, List.append_assoc, hcursor]
    cases first with
    | true => exact hskip
    | false => exact hskip

/-- The pairs of a map are read when each of them is. -/
theorem reads_writeEdnPairs {pairs : List (Value × Value)}
    (hpairs : ∀ p ∈ pairs, ∀ rest, Follows rest →
      Reads floats .value (utf8 (writeEdn floats p.1) ++ rest) p.1 rest ∧
      Reads floats .value (utf8 (writeEdn floats p.2) ++ rest) p.2 rest) (first : Bool)
    (rest : List UInt8) :
    Reads floats .pairs
      (utf8 (writeEdnPairs floats first pairs) ++ '}'.toUInt8 :: rest) (.map pairs) rest := by
  induction pairs generalizing first with
  | nil => exact .endPairs rfl
  | cons p pairs ih =>
    obtain ⟨k, v⟩ := p
    rw [List.forall_mem_cons] at hpairs
    have hlater := ih hpairs.2 false
    have hfollows : Follows (utf8 (writeEdnPairs floats false pairs) ++ '}'.toUInt8 :: rest) := by
      cases pairs with
      | nil => exact fun b hb ↦ by rw [← Option.some.inj hb]; decide
      | cons w pairs => exact fun b hb ↦ by rw [← Option.some.inj hb]; decide
    have hvalue := (hpairs.1 _ hfollows).2
    have hblank : Follows (' '.toUInt8 :: (utf8 (writeEdn floats v) ++
        (utf8 (writeEdnPairs floats false pairs) ++ '}'.toUInt8 :: rest))) :=
      fun b hb ↦ by rw [← Option.some.inj hb]; decide
    have hkey := (hpairs.1 _ hblank).1
    obtain ⟨b, tail, hcursor, hskip, -, -, hclose⟩ := exists_cursor_eq_cons floats k _
    rw [hcursor] at hkey
    refine .pair ?_ hclose hkey (hvalue.of_skipWs_eq rfl) hlater
    rw [writeEdnPairs, writeEdnPair, utf8_append, utf8_append, utf8_append,
      utf8_cons_ascii (by decide), List.append_assoc, List.append_assoc, List.append_assoc,
      List.cons_append, hcursor]
    cases first with
    | true => exact hskip
    | false => exact hskip

/-- The token of a number is read. -/
theorem reads_number {tok : List Char} {v : Value} (hne : tok ≠ [])
    (htok : ∀ c ∈ tok, isNumberChar c) (hvalue : atomValue floats tok = .ok v)
    {rest : List UInt8} (hrest : Follows rest) :
    Reads floats .value (utf8 tok ++ rest) v rest := by
  refine reads_atom hne (fun hhead ↦ ?_) hvalue (not_isDelim_of_number htok) hrest
  exact absurd (htok _ (List.mem_of_mem_head? hhead)) (by decide)

/-- The text of a plain value is read. -/
theorem reads_writeEdn (v : Value) (hnames : v.KeywordsPlain) (hfinite : v.FloatsFinite)
    (rest : List UInt8) (hrest : Follows rest) :
    Reads floats .value (utf8 (writeEdn floats v) ++ rest) v rest := by
  induction v using Value.induct generalizing rest with
  | nil =>
    rw [writeEdn]
    exact reads_atom (by decide) (by decide) rfl (not_isDelim_of_word (by decide)) hrest
  | bool b =>
    rw [writeEdn]
    cases b with
    | true => exact reads_atom (by decide) (by decide) rfl (not_isDelim_of_word (by decide)) hrest
    | false => exact reads_atom (by decide) (by decide) rfl (not_isDelim_of_word (by decide)) hrest
  | int i =>
    rw [writeEdn]
    exact reads_number (showI64_ne_nil i) (fun c ↦ isNumberChar_of_mem_showI64)
      (atomValue_showI64 i) hrest
  | float f =>
    have hf : f.isFinite := hfinite f (by simp [Value.parts])
    obtain ⟨hpoint, hchars, -⟩ := fmtFloat_finite floats hf
    rw [writeEdn]
    exact reads_number (List.ne_nil_of_mem hpoint) hchars (atomValue_fmtFloat hf) hrest
  | str s =>
    have hquoted := readsStrings.pushEscaped_append s.toList rest []
    rw [List.nil_append] at hquoted
    have hread : Reads floats .value ('"'.toUInt8 ::
        (utf8 (pushEscaped s.toList) ++ '"'.toUInt8 :: rest)) (.str (.ofList s.toList)) rest :=
      .string rfl hquoted
    rw [String.ofList_toList] at hread
    rw [writeEdn, writeQuoted, utf8_cons_ascii (by decide), utf8_append,
      utf8_cons_ascii (by decide), utf8_nil, List.cons_append, List.append_assoc,
      List.singleton_append]
    exact hread
  | keyword k =>
    rw [writeEdn, utf8_cons_ascii (by decide), List.cons_append]
    exact .keyword rfl (parseKeyword_plain (hnames k (by simp [Value.parts])) hrest)
  | list items ih =>
    have hitems : ∀ v ∈ items, ∀ rest, Follows rest →
        Reads floats .value (utf8 (writeEdn floats v) ++ rest) v rest :=
      fun v hv ↦ ih v hv (hnames.of_list hv) (hfinite.of_list hv)
    rw [writeEdn, utf8_cons_ascii (by decide), utf8_append, utf8_cons_ascii (by decide), utf8_nil,
      List.cons_append, List.append_assoc, List.singleton_append]
    exact .vector rfl (reads_writeEdnItems hitems true rest)
  | map pairs ih =>
    have hpairs : ∀ p ∈ pairs, ∀ rest, Follows rest →
        Reads floats .value (utf8 (writeEdn floats p.1) ++ rest) p.1 rest ∧
        Reads floats .value (utf8 (writeEdn floats p.2) ++ rest) p.2 rest :=
      fun p hp rest hrest ↦
        ⟨(ih p hp).1 (hnames.of_map hp).1 (hfinite.of_map hp).1 rest hrest,
          (ih p hp).2 (hnames.of_map hp).2 (hfinite.of_map hp).2 rest hrest⟩
    rw [writeEdn, utf8_cons_ascii (by decide), utf8_append, utf8_cons_ascii (by decide), utf8_nil,
      List.cons_append, List.append_assoc, List.singleton_append]
    exact .map rfl (reads_writeEdnPairs hpairs true rest)

/-- A text that is the text of a value, with nothing but white space after it, is that value. -/
theorem parse_writeEdn {v : Value} (hnames : v.KeywordsPlain) (hfinite : v.FloatsFinite) :
    parse floats (writeEdn floats v) = .ok v := by
  obtain ⟨b, tail, hcursor, hskip, -⟩ := exists_cursor_eq_cons floats v []
  have hread := @reads_writeEdn floats v hnames hfinite [] (by rintro b ⟨⟩)
  rw [List.append_nil] at hread hcursor
  refine parse_eq_ok_iff.mpr ⟨[], ?_, rfl⟩
  rw [hcursor, hskip, ← hcursor]
  exact hread

end Edn

/-! ### Entries -/

theorem plainName_of_mem {name : String}
    (h : name ∈ ["index", "time", "clock", "type", "process", "f", "value", "virtual", "wall",
      "invoke", "ok", "fail", "info"]) : PlainName name := by
  revert name
  simp only [PlainName]
  decide +kernel

theorem entryToValue_keywordsPlain {e : OpEntry} (hname : PlainName e.f.name)
    (hvalue : e.value.KeywordsPlain) : (entryToValue e).KeywordsPlain := by
  intro k hk
  have hclock : clockKw e.time.clock ∈ ["virtual", "wall"] := by
    cases e.time.clock <;> simp [clockKw]
  have hkind : e.kind.keyword ∈ ["invoke", "ok", "fail", "info"] := by
    cases e.kind <;> simp [OpKind.keyword]
  rw [entryToValue, Value.mem_parts_map] at hk
  simp only [List.mem_cons, Value.parts, List.not_mem_nil, or_false, reduceCtorEq, false_or,
    exists_eq_or_imp, Value.keyword.injEq, exists_eq_left] at hk
  rcases hk with rfl | rfl | (rfl | rfl) | (rfl | rfl) | rfl | (rfl | rfl) | rfl | hk
  · exact plainName_of_mem (by decide)
  · exact plainName_of_mem (by decide)
  · exact plainName_of_mem (by decide)
  · exact plainName_of_mem (by simp only [List.mem_cons] at hclock ⊢; tauto)
  · exact plainName_of_mem (by decide)
  · exact plainName_of_mem (by simp only [List.mem_cons] at hkind ⊢; tauto)
  · exact plainName_of_mem (by decide)
  · exact plainName_of_mem (by decide)
  · exact hname
  · exact plainName_of_mem (by decide)
  · exact hvalue k hk

theorem entryToValue_floatsFinite {e : OpEntry} (h : e.value.FloatsFinite) :
    (entryToValue e).FloatsFinite := by
  intro f hf
  rw [entryToValue, Value.mem_parts_map] at hf
  simp only [List.mem_cons, Value.parts, List.not_mem_nil, or_false, reduceCtorEq, false_or,
    exists_eq_or_imp, exists_eq_left] at hf
  exact h f hf

theorem clockFromKw_clockKw (clock : Clock) : clockFromKw (clockKw clock) = .ok clock := by
  cases clock <;> rfl

theorem kindFromKw_keyword (kind : OpKind) : kindFromKw kind.keyword = .ok kind := by
  rw [kindFromKw, OpKind.fromKeyword_keyword]

/-- The map of an entry is read back. -/
theorem valueToEntry_entryToValue (e : OpEntry) : valueToEntry (entryToValue e) = .ok e := by
  simp [valueToEntry, entryToValue, getField, requireInt, readClock, clockFromKw_clockKw, readKind,
    kindFromKw_keyword, readFunction]
  rfl

/-! ### Lines -/

variable {floats : FloatText}

theorem PlainName.newline_notMem {name : String} (h : PlainName name) : '\n' ∉ name.toList := by
  intro hmem
  have hbyte : '\n'.toUInt8 ∈ utf8 name.toList :=
    List.mem_flatMap.mpr ⟨'\n', hmem, by decide⟩
  exact absurd (h.2 _ hbyte) (by decide)

theorem newline_notMem_pushEscaped (s : List Char) : '\n' ∉ pushEscaped s := by
  intro hmem
  obtain ⟨c, -, hc⟩ := List.mem_flatMap.mp hmem
  unfold escapeChar at hc
  split_ifs at hc with hquote hslash hn
  case neg => exact hn (List.mem_singleton.mp hc).symm
  all_goals simp at hc

/-- The text of a plain value is on one line. -/
theorem newline_notMem_writeEdn {v : Value} (hnames : v.KeywordsPlain) :
    '\n' ∉ writeEdn floats v := by
  have hnumber {tok : List Char} (htok : ∀ c ∈ tok, isNumberChar c) : '\n' ∉ tok := fun hmem ↦
    absurd (htok _ hmem) (by decide)
  induction v using Value.induct with
  | nil =>
    rw [writeEdn]
    decide
  | bool b =>
    rw [writeEdn]
    cases b <;> decide
  | int i =>
    rw [writeEdn]
    exact hnumber fun c ↦ isNumberChar_of_mem_showI64
  | float f =>
    rw [writeEdn]
    by_cases hf : f.isFinite
    · exact hnumber (fmtFloat_finite floats hf).2.1
    · rw [fmtFloat, if_neg hf]
      decide
  | str s =>
    have hstring := newline_notMem_pushEscaped s.toList
    simp [writeEdn, writeQuoted, hstring]
  | keyword k =>
    have hname := (hnames k (by simp [Value.parts])).newline_notMem
    simp [writeEdn, hname]
  | list items ih =>
    have hitems : '\n' ∉ writeEdnItems floats true items := by
      intro hmem
      rcases mem_writeEdnItems floats hmem with heq | ⟨v, hv, hc⟩
      · exact absurd heq (by decide)
      · exact ih v hv (hnames.of_list hv) hc
    simp [writeEdn, hitems]
  | map pairs ih =>
    have hpairs : '\n' ∉ writeEdnPairs floats true pairs := by
      intro hmem
      rcases mem_writeEdnPairs floats hmem with heq | heq | ⟨p, hp, hc | hc⟩
      · exact absurd heq (by decide)
      · exact absurd heq (by decide)
      · exact (ih p hp).1 (hnames.of_map hp).1 hc
      · exact (ih p hp).2 (hnames.of_map hp).2 hc
    simp [writeEdn, hpairs]

/-- The text of an entry, without the end of its line. -/
def entryText (floats : FloatText) (e : OpEntry) : List Char := writeEdn floats (entryToValue e)

theorem exists_entryText_eq (floats : FloatText) (e : OpEntry) :
    ∃ body, entryText floats e = '{' :: (body ++ ['}']) := ⟨_, rfl⟩

theorem toJepsenEdn_cons (e : OpEntry) (entries : List OpEntry) :
    History.toJepsenEdn floats ⟨e :: entries⟩ =
      entryText floats e ++ '\n' :: History.toJepsenEdn floats ⟨entries⟩ := by
  rw [History.toJepsenEdn, List.flatMap_cons, List.append_assoc]
  rfl

/-- The text of a plain entry is the first line. -/
theorem entryLines_cons {e : OpEntry} (hname : PlainName e.f.name)
    (hvalue : e.value.KeywordsPlain) (entries : List OpEntry) :
    entryLines (History.toJepsenEdn floats ⟨e :: entries⟩) =
      entryText floats e :: entryLines (History.toJepsenEdn floats ⟨entries⟩) := by
  obtain ⟨body, hbody⟩ := exists_entryText_eq floats e
  have hline : '\n' ∉ entryText floats e :=
    newline_notMem_writeEdn (entryToValue_keywordsPlain hname hvalue)
  have hlast : (entryText floats e).getLast? ≠ some '\r' := by
    rw [hbody, ← List.cons_append, List.getLast?_concat]
    decide
  have htrim : trim (entryText floats e) ≠ [] := by
    refine trim_ne_nil (c := '{') ?_ (by decide)
    rw [hbody]
    exact List.mem_cons_self
  rw [toJepsenEdn_cons, entryLines, lines_append hline hlast, List.filter_cons,
    if_pos (decide_eq_true htrim)]
  rfl

/-- Every entry of a plain history is a line. -/
theorem entryLines_toJepsenEdn {h : History} (hnames : h.NamesPlain) :
    entryLines (h.toJepsenEdn floats) = h.entries.map (entryText floats) := by
  obtain ⟨entries⟩ := h
  induction entries with
  | nil => rfl
  | cons e entries ih =>
    obtain ⟨hplain, hrest⟩ := List.forall_mem_cons.mp hnames
    rw [entryLines_cons hplain.1 hplain.2, ih hrest, List.map_cons]

/-- The line of a plain entry is read back. -/
theorem lineToEntry_entryText {e : OpEntry} (hname : PlainName e.f.name)
    (hvalue : e.value.KeywordsPlain) (hfinite : e.value.FloatsFinite) :
    lineToEntry floats (entryText floats e) = .ok e := by
  rw [lineToEntry, entryText, Edn.parse_writeEdn (entryToValue_keywordsPlain hname hvalue)
    (entryToValue_floatsFinite hfinite)]
  exact valueToEntry_entryToValue e

/-- The text of a history starts with a brace. -/
theorem trimStart_toJepsenEdn (h : History) :
    trimStart (h.toJepsenEdn floats) = h.toJepsenEdn floats ∧
      isSequence (h.toJepsenEdn floats) = false := by
  obtain ⟨_ | ⟨e, entries⟩⟩ := h
  · exact ⟨rfl, rfl⟩
  · obtain ⟨body, hbody⟩ := exists_entryText_eq floats e
    rw [toJepsenEdn_cons, hbody]
    exact ⟨rfl, rfl⟩

/-- A plain history is read back line by line. -/
theorem fromJepsen_lines {h : History} (hnames : h.NamesPlain) (hfinite : h.FloatsFinite) :
    fromJepsen floats (h.toJepsenEdn floats) = .ok h := by
  obtain ⟨htrim, hsequence⟩ := @trimStart_toJepsenEdn floats h
  have hentries : (h.entries.map (entryText floats)).mapM (lineToEntry floats) = .ok h.entries :=
    mapM_map_eq_ok fun e he ↦
      lineToEntry_entryText (hnames e he).1 (hnames e he).2 (hfinite e he)
  simp only [fromJepsen, htrim, hsequence, entryLines_toJepsenEdn hnames, hentries]
  rfl

/-! ### One sequence -/

/-- The entries of a plain history are read as the items of a sequence. -/
theorem reads_toJepsenEdn {close : UInt8} (hclose : close = ']'.toUInt8 ∨ close = ')'.toUInt8)
    {h : History} (hnames : h.NamesPlain) (hfinite : h.FloatsFinite) :
    Edn.Reads floats (.items close) (utf8 (h.toJepsenEdn floats) ++ [close])
      (.list (h.entries.map entryToValue)) [] := by
  obtain ⟨entries⟩ := h
  have hskip (lead tail : List UInt8) (hlead : lead = [] ∨ lead = ['\n'.toUInt8]) :
      Edn.skipWs (lead ++ close :: tail) = close :: tail := by
    rcases hlead with rfl | rfl <;> rcases hclose with rfl | rfl <;> rfl
  -- Each entry but the first stands after the end of a line.
  have hitems (lead : List UInt8) (hlead : lead = [] ∨ lead = ['\n'.toUInt8]) :
      Edn.Reads floats (.items close)
        (lead ++ (utf8 (History.toJepsenEdn floats ⟨entries⟩) ++ [close]))
        (.list (entries.map entryToValue)) [] := by
    induction entries generalizing lead with
    | nil => exact .endItems (hskip lead [] hlead)
    | cons e entries ih =>
      obtain ⟨hplain, hrest⟩ := List.forall_mem_cons.mp hnames
      obtain ⟨hfloats, hlater⟩ := List.forall_mem_cons.mp hfinite
      have hread := @Edn.reads_writeEdn floats (entryToValue e)
        (entryToValue_keywordsPlain hplain.1 hplain.2) (entryToValue_floatsFinite hfloats)
        ('\n'.toUInt8 :: (utf8 (History.toJepsenEdn floats ⟨entries⟩) ++ [close]))
        (fun b hb ↦ by rw [← Option.some.inj hb]; decide)
      obtain ⟨b, tail, hcursor, hhead, hbracket, hparen, -⟩ :=
        Edn.exists_cursor_eq_cons floats (entryToValue e)
          ('\n'.toUInt8 :: (utf8 (History.toJepsenEdn floats ⟨entries⟩) ++ [close]))
      have hne : b ≠ close := by
        rcases hclose with rfl | rfl
        · exact hbracket
        · exact hparen
      rw [hcursor] at hread
      refine .item ?_ hne hread
        (ih hrest hlater ['\n'.toUInt8] (.inr rfl))
      rw [toJepsenEdn_cons, utf8_append, utf8_cons_ascii (by decide), List.append_assoc,
        List.cons_append, entryText, hcursor]
      rcases hlead with rfl | rfl
      · exact hhead
      · exact hhead
  exact hitems [] (.inl rfl)

theorem looksLikeJson_toJepsenEdn {opener closer : Char} (hopener : opener ≠ '{')
    (hcloser : closer ≠ '{') (h : History) :
    looksLikeJson (opener :: (h.toJepsenEdn floats ++ [closer])) = false := by
  obtain ⟨_ | ⟨e, entries⟩⟩ := h
  · simp [looksLikeJson, History.toJepsenEdn, hopener, hcloser]
  · obtain ⟨body, hbody⟩ : ∃ body, entryText floats e = '{' :: ':' :: body := ⟨_, rfl⟩
    rw [toJepsenEdn_cons, hbody]
    simp [looksLikeJson, hopener, trimStart, isWhitespace]

/-- A plain history in one pair of brackets or parentheses is read back. -/
theorem fromJepsen_wrapped {opener closer : Char}
    (hwrap : (opener, closer) = ('[', ']') ∨ (opener, closer) = ('(', ')')) {h : History}
    (hnames : h.NamesPlain) (hfinite : h.FloatsFinite) :
    fromJepsen floats (opener :: (h.toJepsenEdn floats ++ [closer])) = .ok h := by
  have hopener : opener ≠ '{' ∧ closer ≠ '{' := by
    rcases hwrap with heq | heq <;> obtain ⟨rfl, rfl⟩ := Prod.mk.inj heq <;> decide
  have htrim : trimStart (opener :: (h.toJepsenEdn floats ++ [closer])) =
      opener :: (h.toJepsenEdn floats ++ [closer]) := by
    rcases hwrap with heq | heq <;> obtain ⟨rfl, rfl⟩ := Prod.mk.inj heq <;> rfl
  have hsequence : isSequence (opener :: (h.toJepsenEdn floats ++ [closer])) = true := by
    rcases hwrap with heq | heq <;> obtain ⟨rfl, rfl⟩ := Prod.mk.inj heq <;> rfl
  have hparse : Edn.parse floats (opener :: (h.toJepsenEdn floats ++ [closer])) =
      .ok (.list (h.entries.map entryToValue)) := by
    refine Edn.parse_eq_ok_iff.mpr ⟨[], ?_, rfl⟩
    rcases hwrap with heq | heq <;> obtain ⟨rfl, rfl⟩ := Prod.mk.inj heq
    · rw [utf8_cons_ascii (by decide), utf8_append, utf8_cons_ascii (by decide), utf8_nil]
      exact .vector rfl (reads_toJepsenEdn (.inl rfl) hnames hfinite)
    · rw [utf8_cons_ascii (by decide), utf8_append, utf8_cons_ascii (by decide), utf8_nil]
      exact .list rfl (reads_toJepsenEdn (.inr rfl) hnames hfinite)
  have hentries : (h.entries.map entryToValue).mapM valueToEntry = .ok h.entries :=
    mapM_map_eq_ok fun e _ ↦ valueToEntry_entryToValue e
  simp only [fromJepsen, htrim, hsequence, looksLikeJson_toJepsenEdn hopener.1 hopener.2]
  simp [hparse, historyOfValue, hentries, bind, Except.bind, Except.map]

/-- Histories with plain names and finite floats are read back from their EDN text, line by line and
as one vector or list. -/
theorem fromJepsen_toJepsenEdn (floats : FloatText) (h : History) (hnames : h.NamesPlain)
    (hfinite : h.FloatsFinite) :
    fromJepsen floats (h.toJepsenEdn floats) = .ok h ∧
      fromJepsen floats ('[' :: (h.toJepsenEdn floats ++ [']'])) = .ok h ∧
      fromJepsen floats ('(' :: (h.toJepsenEdn floats ++ [')'])) = .ok h :=
  ⟨fromJepsen_lines hnames hfinite, fromJepsen_wrapped (.inl rfl) hnames hfinite,
    fromJepsen_wrapped (.inr rfl) hnames hfinite⟩

/-- A history with nested values, escapes and text beyond ASCII. -/
def nestedHistory : History where
  entries :=
    [⟨0, .virtualNanos 0, .invoke, ⟨7⟩, ⟨"txn"⟩,
      .list [.list [.keyword "append", .keyword "x", .int (-1)], .float oneAndHalf]⟩,
    ⟨1, ⟨5, .wall⟩, .ok, ⟨7⟩, ⟨"txn"⟩,
      .map [(.str "a\"\\\nλ", .nil), (.list [.bool true], .str ":x")]⟩]

theorem nestedHistory_read :
    fromJepsen sampleFloats (nestedHistory.toJepsenEdn sampleFloats) = .ok nestedHistory ∧
      fromJepsen sampleFloats ('[' :: (nestedHistory.toJepsenEdn sampleFloats ++ [']'])) =
        .ok nestedHistory ∧
      fromJepsen sampleFloats ('(' :: (nestedHistory.toJepsenEdn sampleFloats ++ [')'])) =
        .ok nestedHistory :=
  fromJepsen_toJepsenEdn sampleFloats nestedHistory (by decide +kernel) (by decide +kernel)

end Propsim.Interchange
