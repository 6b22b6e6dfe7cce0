import Propsim.Interchange.EdnGrammar

/-!
# Where the EDN reader panics

The reader slices the text at its cursor, and an escape moves the cursor by one byte. So it panics
exactly where a string that it reaches has a character beyond ASCII behind a backslash
(`panics_iff`), and never hangs.
-/

set_option autoImplicit false
set_option relaxedAutoImplicit false

namespace Propsim.Interchange

open Foundation

/-! ### How reading ends -/

section

variable {α β : Type} {bad later : Prop} {result : Except Stop (α × List UInt8)}

/-- Reading panics exactly under a condition, does not hang, and where it returns, the cursor is at
a character boundary. -/
structure Ends (bad : Prop) (result : Except Stop (α × List UInt8)) : Prop where
  panic : result = .error .panic ↔ bad
  hang : result ≠ .error .hang
  tail : ∀ a tail, result = .ok (a, tail) → IsUtf8 tail

theorem Ends.congr (h : Ends bad result) (hiff : bad ↔ later) : Ends later result :=
  ⟨h.panic.trans hiff, h.hang, h.tail⟩

theorem ends_ok {a : α} {tail : List UInt8} (htail : IsUtf8 tail) :
    Ends False (.ok (a, tail)) := by
  refine ⟨by simp, by simp, fun b rest hok ↦ ?_⟩
  obtain ⟨-, rfl⟩ := Prod.mk.inj (Except.ok.inj hok)
  exact htail

theorem ends_error (e : ParseError) : Ends (α := α) False (.error (.error e)) :=
  ⟨by simp, by simp, by simp⟩

theorem ends_panic : Ends (α := α) True (.error .panic) := ⟨by simp, by simp, by simp⟩

/-- What is read after something else. -/
theorem Ends.after {final : Except Stop (β × List UInt8)} (h : Ends bad result)
    (more : α → List UInt8 → Prop) (herror : ∀ e, result = .error e → final = .error e)
    (hnext : ∀ a mid, result = .ok (a, mid) → IsUtf8 mid → Ends (more a mid) final) :
    Ends (bad ∨ ∃ a mid, result = .ok (a, mid) ∧ more a mid) final := by
  cases result with
  | error e =>
    rw [herror e rfl]
    refine ⟨?_, fun hhang ↦ h.hang (by rw [Except.error.inj hhang]), by simp⟩
    rw [← h.panic]
    simp
  | ok read =>
    obtain ⟨a, mid⟩ := read
    have hbad : ¬ bad := by
      rw [← h.panic]
      simp
    refine (hnext a mid rfl (h.tail a mid rfl)).congr ?_
    simp [hbad]

end

namespace Edn

variable {floats : FloatText}

theorem isUtf8_skipFrom (comment : Bool) (text : List Char) :
    IsUtf8 (skipFrom comment (utf8 text)) := by
  induction text generalizing comment with
  | nil => cases comment <;> exact isUtf8_utf8 []
  | cons c text ih =>
    by_cases hc : c.toNat < 128
    · rw [utf8_cons_ascii hc]
      cases comment with
      | true => exact ih _
      | false =>
        rw [skipFrom]
        split_ifs
        · exact ih _
        · exact ih _
        · exact ⟨c :: text, utf8_cons_ascii hc text⟩
    · have hwide (b : UInt8) (hb : 0x80 ≤ b) : b ≠ '\n'.toUInt8 ∧
          (isAsciiWhitespace b || b == ','.toUInt8) = false ∧ (b == ';'.toUInt8) = false := by
        revert b
        exact forall_byte (by decide +kernel)
      cases comment with
      | true =>
        -- No byte of the character ends the comment.
        have hskipped {bytes rest : List UInt8} (hbytes : ∀ b ∈ bytes, 0x80 ≤ b) :
            skipFrom true (bytes ++ rest) = skipFrom true rest := by
          induction bytes with
          | nil => rfl
          | cons b bytes ihbytes =>
            rw [List.forall_mem_cons] at hbytes
            rw [List.cons_append, skipFrom, bne_iff_ne.mpr (hwide b hbytes.1).1]
            exact ihbytes hbytes.2
        rw [utf8_cons, hskipped fun b ↦ le_of_mem_utf8EncodeChar (Nat.not_lt.mp hc)]
        exact ih true
      | false =>
        obtain ⟨b, bs, heq, hlead, -, -⟩ := utf8EncodeChar_wide (Nat.not_lt.mp hc)
        obtain ⟨-, hspace, hcomment⟩ := hwide b (UInt8.le_trans (by decide) hlead)
        refine ⟨c :: text, ?_⟩
        rw [utf8_cons, heq, List.cons_append, skipFrom, hspace, hcomment]
        rfl

theorem isUtf8_skipWs {bytes : List UInt8} (h : IsUtf8 bytes) : IsUtf8 (skipWs bytes) := by
  obtain ⟨text, rfl⟩ := h
  exact isUtf8_skipFrom false text

/-! ### Strings -/

/-- The contents of a string in which a character beyond ASCII stands behind a backslash. -/
inductive BadString : List UInt8 → Prop
  | here {b : UInt8} {rest : List UInt8} (hb : 0x80 ≤ b) : BadString ('\\'.toUInt8 :: b :: rest)
  | escape {b : UInt8} {rest : List UInt8} (hb : b < 0x80) (h : BadString rest) :
      BadString ('\\'.toUInt8 :: b :: rest)
  | char {b : UInt8} {bytes rest : List UInt8} {c : Char} (hquote : b ≠ '"'.toUInt8)
      (hslash : b ≠ '\\'.toUInt8) (hnext : nextChar (b :: bytes) = some (c, rest))
      (h : BadString rest) : BadString (b :: bytes)

/-- The contents of a string decide alone how its reading ends. -/
theorem ends_parseString {bytes : List UInt8} (h : IsUtf8 bytes) (out : List Char) :
    Ends (BadString bytes) (parseString bytes out) := by
  fun_induction parseString bytes out with
  | case1 =>
    refine (ends_error _).congr (iff_of_false id fun hbad ↦ ?_)
    cases hbad
  | case2 out rest =>
    refine (ends_ok (h.tail (by decide))).congr (iff_of_false id fun hbad ↦ ?_)
    cases hbad with
    | char hquote => exact hquote rfl
  | case3 =>
    refine (ends_error _).congr (iff_of_false id fun hbad ↦ ?_)
    cases hbad with
    | char _ hslash => exact hslash rfl
  | case4 out other rest _ ih =>
    have hother := h.tail (by decide)
    by_cases hascii : other < 0x80
    · refine (ih (hother.tail hascii)).congr ⟨.escape hascii, fun hbad ↦ ?_⟩
      cases hbad with
      | here hwide => exact absurd (UInt8.lt_of_le_of_lt hwide hascii) (by decide)
      | escape _ hbad => exact hbad
      | char _ hslash => exact absurd rfl hslash
    · -- The cursor is inside the character, and the next byte is read as one.
      have hwide : 0x80 ≤ other := UInt8.not_lt.mp hascii
      obtain ⟨b, tail, rfl, hb, hnone⟩ := hother.nextChar_eq_none hwide
      have hne (d : Char) (hd : d.toUInt8 < 0x80) : b ≠ d.toUInt8 := by
        rintro rfl
        exact absurd (UInt8.lt_of_le_of_lt hb hd) (by decide)
      rw [parseString_char_eq (hne '"' (by decide)) (hne '\\' (by decide)), hnone]
      exact ends_panic.congr (iff_of_true trivial (.here hwide))
  | case5 out b rest _ _ hnone =>
    obtain ⟨c, tail, hnext, -⟩ := h.exists_nextChar
    cases hnone.symm.trans hnext
  | case6 out b rest hquote hslash c tail hnext ih =>
    obtain ⟨c', tail', hnext', htail⟩ := h.exists_nextChar
    obtain ⟨-, rfl⟩ := Prod.mk.inj (Option.some.inj (hnext.symm.trans hnext'))
    refine (ih htail).congr ⟨.char hquote hslash hnext, fun hbad ↦ ?_⟩
    cases hbad with
    | here => exact absurd rfl hslash
    | escape => exact absurd rfl hslash
    | char _ _ hnext' hbad =>
      obtain ⟨-, rfl⟩ := Prod.mk.inj (Option.some.inj (hnext.symm.trans hnext'))
      exact hbad

/-! ### Tokens -/

theorem isDelim_wide (b : UInt8) (hb : 0x80 ≤ b) : (!isDelim b) = true := by
  revert b
  exact forall_byte (by decide +kernel)

theorem ends_parseKeyword {bytes : List UInt8} (h : IsUtf8 bytes) :
    Ends False (parseKeyword bytes) := by
  obtain ⟨htail, token, htoken⟩ := h.scan isDelim_wide
  unfold parseKeyword
  simp only
  split_ifs
  · exact ends_error _
  · rw [sliceOrPanic_eq_ok.mpr htoken]
    exact ends_ok htail

theorem atomValue_cases (tok : List Char) :
    (∃ v, atomValue floats tok = .ok v) ∨ ∃ e, atomValue floats tok = .error (.error e) := by
  unfold atomValue
  split_ifs
  · exact .inl ⟨_, rfl⟩
  · exact .inl ⟨_, rfl⟩
  · exact .inl ⟨_, rfl⟩
  · split
    · exact .inl ⟨_, rfl⟩
    · split
      · exact .inl ⟨_, rfl⟩
      · exact .inr ⟨_, rfl⟩

theorem ends_parseAtom {bytes : List UInt8} (h : IsUtf8 bytes) :
    Ends False (parseAtom floats bytes) := by
  obtain ⟨htail, token, htoken⟩ := h.scan isDelim_wide
  rw [parseAtom, sliceOrPanic_eq_ok.mpr htoken]
  obtain ⟨v, hv⟩ | ⟨e, he⟩ := @atomValue_cases floats token
  · simp only [bind, Except.bind, hv]
    exact ends_ok htail
  · simp only [bind, Except.bind, he]
    exact ends_error e

/-! ### Values -/

/-- A bad string is reached: everything before it is read, and it is in the value, in the items or
in the pairs that are read next. -/
inductive Escapes (floats : FloatText) : Form → List UInt8 → Prop
  | map {bytes rest : List UInt8} (h : skipWs bytes = '{'.toUInt8 :: rest)
      (hpairs : Escapes floats .pairs rest) : Escapes floats .value bytes
  | vector {bytes rest : List UInt8} (h : skipWs bytes = '['.toUInt8 :: rest)
      (hitems : Escapes floats (.items ']'.toUInt8) rest) : Escapes floats .value bytes
  | list {bytes rest : List UInt8} (h : skipWs bytes = '('.toUInt8 :: rest)
      (hitems : Escapes floats (.items ')'.toUInt8) rest) : Escapes floats .value bytes
  | string {bytes rest : List UInt8} (h : skipWs bytes = '"'.toUInt8 :: rest)
      (hbad : BadString rest) : Escapes floats .value bytes
  | item {bytes rest : List UInt8} {close b : UInt8} (h : skipWs bytes = b :: rest)
      (hb : b ≠ close) (hv : Escapes floats .value (b :: rest)) :
      Escapes floats (.items close) bytes
  | laterItem {bytes rest mid : List UInt8} {close b : UInt8} {v : Value}
      (h : skipWs bytes = b :: rest) (hb : b ≠ close) (hv : Reads floats .value (b :: rest) v mid)
      (hitems : Escapes floats (.items close) mid) : Escapes floats (.items close) bytes
  | key {bytes rest : List UInt8} {b : UInt8} (h : skipWs bytes = b :: rest)
      (hb : b ≠ '}'.toUInt8) (hk : Escapes floats .value (b :: rest)) :
      Escapes floats .pairs bytes
  | keyValue {bytes rest mid : List UInt8} {b : UInt8} {k : Value} (h : skipWs bytes = b :: rest)
      (hb : b ≠ '}'.toUInt8) (hk : Reads floats .value (b :: rest) k mid)
      (hv : Escapes floats .value mid) : Escapes floats .pairs bytes
  | laterPair {bytes rest mid mid' : List UInt8} {b : UInt8} {k v : Value}
      (h : skipWs bytes = b :: rest) (hb : b ≠ '}'.toUInt8)
      (hk : Reads floats .value (b :: rest) k mid) (hv : Reads floats .value mid v mid')
      (hpairs : Escapes floats .pairs mid') : Escapes floats .pairs bytes

theorem not_escapes {form : Form} {bytes : List UInt8} (h : skipWs bytes = []) :
    ¬ Escapes floats form bytes := by
  intro hbad
  cases hbad with
  | map h' => cases h.symm.trans h'
  | vector h' => cases h.symm.trans h'
  | list h' => cases h.symm.trans h'
  | string h' => cases h.symm.trans h'
  | item h' => cases h.symm.trans h'
  | laterItem h' => cases h.symm.trans h'
  | key h' => cases h.symm.trans h'
  | keyValue h' => cases h.symm.trans h'
  | laterPair h' => cases h.symm.trans h'

theorem escapes_value_iff {bytes rest : List UInt8} {b : UInt8} (h : skipWs bytes = b :: rest) :
    Escapes floats .value bytes ↔ b = '{'.toUInt8 ∧ Escapes floats .pairs rest ∨
      b = '['.toUInt8 ∧ Escapes floats (.items ']'.toUInt8) rest ∨
      b = '('.toUInt8 ∧ Escapes floats (.items ')'.toUInt8) rest ∨
      b = '"'.toUInt8 ∧ BadString rest := by
  constructor
  · intro hbad
    cases hbad with
    | map h' hbad =>
      obtain ⟨rfl, rfl⟩ := List.cons.inj (h.symm.trans h')
      exact .inl ⟨rfl, hbad⟩
    | vector h' hbad =>
      obtain ⟨rfl, rfl⟩ := List.cons.inj (h.symm.trans h')
      exact .inr (.inl ⟨rfl, hbad⟩)
    | list h' hbad =>
      obtain ⟨rfl, rfl⟩ := List.cons.inj (h.symm.trans h')
      exact .inr (.inr (.inl ⟨rfl, hbad⟩))
    | string h' hbad =>
      obtain ⟨rfl, rfl⟩ := List.cons.inj (h.symm.trans h')
      exact .inr (.inr (.inr ⟨rfl, hbad⟩))
  · rintro (⟨rfl, hbad⟩ | ⟨rfl, hbad⟩ | ⟨rfl, hbad⟩ | ⟨rfl, hbad⟩)
    · exact .map h hbad
    · exact .vector h hbad
    · exact .list h hbad
    · exact .string h hbad

theorem escapes_items_iff {bytes rest : List UInt8} {b close : UInt8}
    (h : skipWs bytes = b :: rest) : Escapes floats (.items close) bytes ↔ b ≠ close ∧
      (Escapes floats .value (b :: rest) ∨ ∃ v mid, Reads floats .value (b :: rest) v mid ∧
        Escapes floats (.items close) mid) := by
  constructor
  · intro hbad
    cases hbad with
    | item h' hb hv =>
      obtain ⟨rfl, rfl⟩ := List.cons.inj (h.symm.trans h')
      exact ⟨hb, .inl hv⟩
    | laterItem h' hb hv hitems =>
      obtain ⟨rfl, rfl⟩ := List.cons.inj (h.symm.trans h')
      exact ⟨hb, .inr ⟨_, _, hv, hitems⟩⟩
  · rintro ⟨hb, hv | ⟨v, mid, hv, hitems⟩⟩
    · exact .item h hb hv
    · exact .laterItem h hb hv hitems

theorem escapes_pairs_iff {bytes rest : List UInt8} {b : UInt8} (h : skipWs bytes = b :: rest) :
    Escapes floats .pairs bytes ↔ b ≠ '}'.toUInt8 ∧
      (Escapes floats .value (b :: rest) ∨ ∃ k mid, Reads floats .value (b :: rest) k mid ∧
        (Escapes floats .value mid ∨ ∃ v mid', Reads floats .value mid v mid' ∧
          Escapes floats .pairs mid')) := by
  constructor
  · intro hbad
    cases hbad with
    | key h' hb hk =>
      obtain ⟨rfl, rfl⟩ := List.cons.inj (h.symm.trans h')
      exact ⟨hb, .inl hk⟩
    | keyValue h' hb hk hv =>
      obtain ⟨rfl, rfl⟩ := List.cons.inj (h.symm.trans h')
      exact ⟨hb, .inr ⟨_, _, hk, .inl hv⟩⟩
    | laterPair h' hb hk hv hpairs =>
      obtain ⟨rfl, rfl⟩ := List.cons.inj (h.symm.trans h')
      exact ⟨hb, .inr ⟨_, _, hk, .inr ⟨_, _, hv, hpairs⟩⟩⟩
  · rintro ⟨hb, hk | ⟨k, mid, hk, hv | ⟨v, mid', hv, hpairs⟩⟩⟩
    · exact .key h hb hk
    · exact .keyValue h hb hk hv
    · exact .laterPair h hb hk hv hpairs

theorem reads_of_parseValue {bytes tail : List UInt8} {v : Value}
    (h : parseValue floats bytes = .ok (v, tail)) : Reads floats .value bytes v tail :=
  reads_iff.mpr h

/-- How reading ends at cursors of at most a length. -/
structure EndsUpTo (floats : FloatText) (n : ℕ) : Prop where
  value : ∀ bytes, bytes.length ≤ n → IsUtf8 bytes →
    Ends (Escapes floats .value bytes) (parseValue floats bytes)
  items : ∀ close bytes before, close < 0x80 → bytes.length ≤ n → IsUtf8 bytes →
    Ends (Escapes floats (.items close) bytes) (parseSeq floats close bytes before)
  pairs : ∀ bytes before, bytes.length ≤ n → IsUtf8 bytes →
    Ends (Escapes floats .pairs bytes) (parseMap floats bytes before)

theorem endsUpTo (floats : FloatText) (n : ℕ) : EndsUpTo floats n := by
  induction n using Nat.strong_induction_on with
  | _ n ih =>
    have hvalue : ∀ bytes, bytes.length ≤ n → IsUtf8 bytes →
        Ends (Escapes floats .value bytes) (parseValue floats bytes) := by
      intro bytes hle h
      cases hskip : skipWs bytes with
      | nil =>
        rw [parseValue_nil hskip]
        exact (ends_error _).congr (iff_of_false id (not_escapes hskip))
      | cons b rest =>
        have hlt := length_lt_of_skipWs hskip
        have hrest := ih rest.length (by omega)
        have hcursor : IsUtf8 (b :: rest) := hskip ▸ isUtf8_skipWs h
        rw [parseValue_eq hskip]
        split_ifs with hmap hvector hlist hstring hkeyword
        · subst hmap
          refine (hrest.pairs rest [] le_rfl (hcursor.tail (by decide))).congr ?_
          simp +decide [escapes_value_iff hskip]
        · subst hvector
          refine (hrest.items _ rest [] (by decide) le_rfl (hcursor.tail (by decide))).congr ?_
          simp +decide [escapes_value_iff hskip]
        · subst hlist
          refine (hrest.items _ rest [] (by decide) le_rfl (hcursor.tail (by decide))).congr ?_
          simp +decide [escapes_value_iff hskip]
        · subst hstring
          refine ((ends_parseString (hcursor.tail (by decide)) []).after (fun _ _ ↦ False)
            (fun e he ↦ by rw [he]; rfl) fun s tail hs htail ↦ ?_).congr ?_
          · rw [hs]
            exact ends_ok htail
          · simp +decide [escapes_value_iff hskip]
        · subst hkeyword
          refine (ends_parseKeyword (hcursor.tail (by decide))).congr ?_
          simp +decide [escapes_value_iff hskip]
        · refine (ends_parseAtom hcursor).congr ?_
          simp [escapes_value_iff hskip, hmap, hvector, hlist, hstring]
    refine ⟨hvalue, fun close bytes before hclose hle h ↦ ?_, fun bytes before hle h ↦ ?_⟩
    · cases hskip : skipWs bytes with
      | nil =>
        rw [parseSeq_nil hskip]
        exact (ends_error _).congr (iff_of_false id (not_escapes hskip))
      | cons b rest =>
        have hlt := length_lt_of_skipWs hskip
        have hcursor : IsUtf8 (b :: rest) := hskip ▸ isUtf8_skipWs h
        rw [parseSeq_eq hskip]
        split_ifs with hend
        · refine (ends_ok (hcursor.tail (hend ▸ hclose))).congr ?_
          simp [escapes_items_iff hskip, hend]
        · have hitem := hvalue (b :: rest) (by rw [List.length_cons]; omega) hcursor
          refine (hitem.after (fun _ mid ↦ Escapes floats (.items close) mid)
            (fun e he ↦ by rw [he]) fun v mid hv hmid ↦ ?_).congr ?_
          · have hadvance := (reads_of_parseValue hv).length_lt
            rw [List.length_cons] at hadvance
            rw [hv]
            simp only
            rw [if_pos (by omega)]
            exact (ih mid.length (by omega)).items close mid _ hclose le_rfl hmid
          · simp [escapes_items_iff hskip, hend, reads_iff, Parses]
    · cases hskip : skipWs bytes with
      | nil =>
        rw [parseMap_nil hskip]
        exact (ends_error _).congr (iff_of_false id (not_escapes hskip))
      | cons b rest =>
        have hlt := length_lt_of_skipWs hskip
        have hcursor : IsUtf8 (b :: rest) := hskip ▸ isUtf8_skipWs h
        rw [parseMap_eq hskip]
        split_ifs with hend
        · refine (ends_ok (hcursor.tail (hend ▸ (by decide)))).congr ?_
          simp [escapes_pairs_iff hskip, hend]
        · have hkey := hvalue (b :: rest) (by rw [List.length_cons]; omega) hcursor
          refine (hkey.after (fun _ mid ↦ Escapes floats .value mid ∨ ∃ v mid',
            parseValue floats mid = .ok (v, mid') ∧ Escapes floats .pairs mid')
            (fun e he ↦ by rw [he]) fun k mid hk hmid ↦ ?_).congr ?_
          · have hadvance := (reads_of_parseValue hk).length_lt
            rw [List.length_cons] at hadvance
            rw [hk]
            simp only
            rw [if_pos (by omega)]
            refine (hvalue mid (by omega) hmid).after (fun _ mid' ↦ Escapes floats .pairs mid')
              (fun e he ↦ by rw [he]) fun v mid' hv hmid' ↦ ?_
            have hadvance' := (reads_of_parseValue hv).length_lt
            rw [hv]
            simp only
            rw [if_pos (by omega)]
            exact (ih mid'.length (by omega)).pairs mid' _ le_rfl hmid'
          · simp [escapes_pairs_iff hskip, hend, reads_iff, Parses]

/-- A text panics the reader exactly where it reaches a bad string, and no text hangs it. -/
theorem parse_panics_iff {s : List Char} :
    (parse floats s = .error .panic ↔ Escapes floats .value (skipWs (utf8 s))) ∧
      parse floats s ≠ .error .hang := by
  obtain ⟨hpanic, hhang, -⟩ := (endsUpTo floats (skipWs (utf8 s)).length).value _ le_rfl
    (isUtf8_skipWs (isUtf8_utf8 s))
  rw [parse_eq_wholeText, wholeText_eq_error_iff (by simp), ← hpanic]
  exact ⟨Iff.rfl, fun h ↦ hhang ((wholeText_eq_error_iff (by simp)).mp h)⟩

end Edn

end Propsim.Interchange
