import Propsim.Foundation.JsonText
import Propsim.Interchange.JsonRoundTrip

/-!
# When the JSON text of a history is JSON

The writer escapes quotes, backslashes, line feeds, carriage returns and tabs, and no other control
character. It writes a float that is not finite as `nil`, which is no literal of JSON.
`isText_toJepsenJson_iff` says that nothing else goes wrong.
-/

set_option autoImplicit false
set_option relaxedAutoImplicit false

namespace Propsim.Interchange

open Foundation JsonText

/-- A control character that the writer does not escape. -/
def IsRaw (c : Char) : Prop := IsControl c ∧ ¬ IsSpaceControl c

/-- No string or keyword nested in a value holds a raw control character. -/
def Value.ControlFree (v : Value) : Prop :=
  ∀ s, .str s ∈ v.parts ∨ .keyword s ∈ v.parts → ∀ c ∈ s.toList, ¬ IsRaw c

mutual

/-- The values nested in a value outside its map keys. -/
def Value.valueParts : Value → List Value
  | .list items => .list items :: Value.valuePartsOfItems items
  | .map pairs => .map pairs :: Value.valuePartsOfPairs pairs
  | v => [v]

/-- The values nested in the items of a vector. -/
def Value.valuePartsOfItems : List Value → List Value
  | [] => []
  | v :: rest => Value.valueParts v ++ Value.valuePartsOfItems rest

/-- The values nested in the values of a map. -/
def Value.valuePartsOfPairs : List (Value × Value) → List Value
  | [] => []
  | p :: rest => Value.valuePartsOfPair p ++ Value.valuePartsOfPairs rest

/-- The values nested in the value of a pair. -/
def Value.valuePartsOfPair : Value × Value → List Value
  | (_, v) => Value.valueParts v

end

/-- Every float nested in a value outside its map keys is finite. -/
def Value.NumbersFinite (v : Value) : Prop := ∀ f, .float f ∈ v.valueParts → f.isFinite

theorem Value.mem_valueParts_list {items : List Value} {w : Value} :
    w ∈ (Value.list items).valueParts ↔ w = .list items ∨ ∃ v ∈ items, w ∈ v.valueParts := by
  have hitems : w ∈ Value.valuePartsOfItems items ↔ ∃ v ∈ items, w ∈ v.valueParts := by
    induction items with
    | nil => simp [Value.valuePartsOfItems]
    | cons v rest ih => simp [Value.valuePartsOfItems, ih]
  rw [Value.valueParts, List.mem_cons, hitems]

theorem Value.mem_valueParts_map {pairs : List (Value × Value)} {w : Value} :
    w ∈ (Value.map pairs).valueParts ↔ w = .map pairs ∨ ∃ p ∈ pairs, w ∈ p.2.valueParts := by
  have hpairs : w ∈ Value.valuePartsOfPairs pairs ↔ ∃ p ∈ pairs, w ∈ p.2.valueParts := by
    induction pairs with
    | nil => simp [Value.valuePartsOfPairs]
    | cons p rest ih =>
      obtain ⟨k, v⟩ := p
      simp [Value.valuePartsOfPairs, Value.valuePartsOfPair, ih]
  rw [Value.valueParts, List.mem_cons, hpairs]

theorem numbersFinite_list {items : List Value} :
    (Value.list items).NumbersFinite ↔ ∀ v ∈ items, v.NumbersFinite := by
  refine ⟨fun h v hv f hf ↦ h f (Value.mem_valueParts_list.mpr (.inr ⟨v, hv, hf⟩)),
    fun h f hf ↦ ?_⟩
  obtain heq | ⟨v, hv, hpart⟩ := Value.mem_valueParts_list.mp hf
  · cases heq
  · exact h v hv f hpart

theorem numbersFinite_map {pairs : List (Value × Value)} :
    (Value.map pairs).NumbersFinite ↔ ∀ p ∈ pairs, p.2.NumbersFinite := by
  refine ⟨fun h p hp f hf ↦ h f (Value.mem_valueParts_map.mpr (.inr ⟨p, hp, hf⟩)),
    fun h f hf ↦ ?_⟩
  obtain heq | ⟨p, hp, hpart⟩ := Value.mem_valueParts_map.mp hf
  · cases heq
  · exact h p hp f hpart

theorem controlFree_list {items : List Value} :
    (Value.list items).ControlFree ↔ ∀ v ∈ items, v.ControlFree := by
  simp only [Value.ControlFree, Value.mem_parts_list, reduceCtorEq, false_or]
  constructor
  · exact fun h v hv s hs ↦ h s (hs.imp (fun hs ↦ ⟨v, hv, hs⟩) fun hs ↦ ⟨v, hv, hs⟩)
  · rintro h s (⟨v, hv, hs⟩ | ⟨v, hv, hs⟩)
    · exact h v hv s (.inl hs)
    · exact h v hv s (.inr hs)

theorem controlFree_map {pairs : List (Value × Value)} :
    (Value.map pairs).ControlFree ↔ ∀ p ∈ pairs, p.1.ControlFree ∧ p.2.ControlFree := by
  simp only [Value.ControlFree, Value.mem_parts_map, reduceCtorEq, false_or]
  constructor
  · exact fun h p hp ↦
      ⟨fun s hs ↦ h s (hs.imp (fun hs ↦ ⟨p, hp, .inl hs⟩) fun hs ↦ ⟨p, hp, .inl hs⟩),
        fun s hs ↦ h s (hs.imp (fun hs ↦ ⟨p, hp, .inr hs⟩) fun hs ↦ ⟨p, hp, .inr hs⟩)⟩
  · rintro h s (⟨p, hp, hs | hs⟩ | ⟨p, hp, hs | hs⟩)
    · exact (h p hp).1 s (.inl hs)
    · exact (h p hp).2 s (.inl hs)
    · exact (h p hp).1 s (.inr hs)
    · exact (h p hp).2 s (.inr hs)

/-! ### Raw characters -/

/-- The raw control characters of a text. -/
def RawFree (text : List Char) : Prop := ∀ c ∈ text, ¬ IsRaw c

instance (c : Char) : Decidable (IsRaw c) :=
  inferInstanceAs (Decidable (IsControl c ∧ ¬ IsSpaceControl c))

instance (text : List Char) : Decidable (RawFree text) :=
  List.decidableBAll (fun c ↦ ¬ IsRaw c) text

theorem rawFree_append {text rest : List Char} :
    RawFree (text ++ rest) ↔ RawFree text ∧ RawFree rest := List.forall_mem_append

theorem rawFree_cons {c : Char} {rest : List Char} :
    RawFree (c :: rest) ↔ ¬ IsRaw c ∧ RawFree rest := List.forall_mem_cons

theorem rawFree_nil : RawFree [] := fun _ hc ↦ absurd hc List.not_mem_nil

theorem not_isRaw {c : Char} (h : 0x20 ≤ c.toNat) : ¬ IsRaw c := by
  rintro ⟨hcontrol, -⟩
  unfold IsControl at hcontrol
  omega

theorem rawFree_literal {text : List Char} (h : text.all fun c ↦ 0x20 ≤ c.toNat) :
    RawFree text := fun c hc ↦ not_isRaw (by simpa using List.all_eq_true.mp h c hc)

theorem rawFree_words : RawFree "nil".toList ∧ RawFree "null".toList ∧ RawFree "true".toList ∧
    RawFree "false".toList :=
  ⟨rawFree_literal (by decide), rawFree_literal (by decide), rawFree_literal (by decide),
    rawFree_literal (by decide)⟩

theorem controlFree_str (s : String) : (Value.str s).ControlFree ↔ RawFree s.toList := by
  simp [Value.ControlFree, Value.parts, RawFree]

theorem controlFree_keyword (k : String) : (Value.keyword k).ControlFree ↔ RawFree k.toList := by
  simp [Value.ControlFree, Value.parts, RawFree]

theorem rawFree_escapeChar (c : Char) : RawFree (escapeChar c) ↔ ¬ IsRaw c := by
  have hescape {other : Char} (hother : 0x20 ≤ other.toNat) (hc : ¬ IsRaw c) :
      RawFree ['\\', other] ↔ ¬ IsRaw c :=
    iff_of_true (rawFree_cons.mpr ⟨not_isRaw (by decide), rawFree_cons.mpr
      ⟨not_isRaw hother, rawFree_nil⟩⟩) hc
  unfold escapeChar
  split_ifs with hquote hslash hn hr ht
  · exact hescape (by decide) (not_isRaw (by rw [hquote]; decide))
  · exact hescape (by decide) (not_isRaw (by rw [hslash]; decide))
  · exact hescape (by decide) fun hraw ↦ hraw.2 (.inr (.inl hn))
  · exact hescape (by decide) fun hraw ↦ hraw.2 (.inr (.inr hr))
  · exact hescape (by decide) fun hraw ↦ hraw.2 (.inl ht)
  · simp [rawFree_cons, rawFree_nil]

theorem rawFree_pushEscaped (s : List Char) : RawFree (pushEscaped s) ↔ RawFree s := by
  induction s with
  | nil => rfl
  | cons c s ih =>
    have hcons : pushEscaped (c :: s) = escapeChar c ++ pushEscaped s := rfl
    rw [hcons, rawFree_append, rawFree_escapeChar, ih, rawFree_cons]

theorem rawFree_writeQuoted (s : List Char) : RawFree (writeQuoted s) ↔ RawFree s := by
  have hquote : ¬ IsRaw '"' := not_isRaw (by decide)
  simp [writeQuoted, rawFree_cons, rawFree_append, rawFree_pushEscaped, hquote, rawFree_nil]

theorem rawFree_number {text : List Char} (h : ∀ c ∈ text, Interchange.isNumberChar c) :
    RawFree text := by
  intro c hc
  have hchar := h c hc
  refine fun hraw ↦ not_isControl_of_isNumberChar (c := c) ?_ hraw.1
  simp only [Interchange.isNumberChar, Bool.or_eq_true] at hchar
  simp only [JsonText.isNumberChar, Bool.or_eq_true]
  tauto

variable (floats : FloatText)

theorem rawFree_fmtFloat (f : Binary64) : RawFree (fmtFloat floats f) := by
  by_cases hf : f.isFinite
  · exact rawFree_number (fmtFloat_finite floats hf).2.1
  · rw [fmtFloat, if_neg hf]
    exact rawFree_words.1

theorem rawFree_writeEdnItems (items : List Value) (first : Bool) :
    RawFree (writeEdnItems floats first items) ↔ ∀ v ∈ items, RawFree (writeEdn floats v) := by
  have hblank : ¬ IsRaw ' ' := not_isRaw (by decide)
  induction items generalizing first with
  | nil => simp [writeEdnItems, rawFree_nil]
  | cons v items ih =>
    cases first <;>
      simp [writeEdnItems, rawFree_append, rawFree_cons, hblank, ih]

theorem rawFree_writeEdnPairs (pairs : List (Value × Value)) (first : Bool) :
    RawFree (writeEdnPairs floats first pairs) ↔
      ∀ p ∈ pairs, RawFree (writeEdn floats p.1) ∧ RawFree (writeEdn floats p.2) := by
  have hblank : ¬ IsRaw ' ' := not_isRaw (by decide)
  have hcomma : ¬ IsRaw ',' := not_isRaw (by decide)
  induction pairs generalizing first with
  | nil => simp [writeEdnPairs, rawFree_nil]
  | cons p pairs ih =>
    obtain ⟨k, v⟩ := p
    cases first <;>
      simp [writeEdnPairs, writeEdnPair, rawFree_append, rawFree_cons, hblank, hcomma, ih,
        and_assoc]

/-- The raw control characters of the EDN text of a value are those of its strings and keywords. -/
theorem rawFree_writeEdn (v : Value) : RawFree (writeEdn floats v) ↔ v.ControlFree := by
  have hbracket : ¬ IsRaw '[' ∧ ¬ IsRaw ']' ∧ ¬ IsRaw '{' ∧ ¬ IsRaw '}' ∧ ¬ IsRaw ':' :=
    ⟨not_isRaw (by decide), not_isRaw (by decide), not_isRaw (by decide), not_isRaw (by decide),
      not_isRaw (by decide)⟩
  induction v using Value.induct with
  | nil =>
    rw [writeEdn]
    exact iff_of_true rawFree_words.1 (by simp [Value.ControlFree, Value.parts])
  | bool b =>
    refine iff_of_true ?_ (by simp [Value.ControlFree, Value.parts])
    rw [writeEdn]
    cases b with
    | true => exact rawFree_words.2.2.1
    | false => exact rawFree_words.2.2.2
  | int i =>
    refine iff_of_true ?_ (by simp [Value.ControlFree, Value.parts])
    exact rawFree_number fun c ↦ isNumberChar_of_mem_showI64
  | float f =>
    exact iff_of_true (rawFree_fmtFloat floats f) (by simp [Value.ControlFree, Value.parts])
  | str s => rw [writeEdn, rawFree_writeQuoted, controlFree_str]
  | keyword k => simp [writeEdn, rawFree_cons, hbracket, controlFree_keyword]
  | list items ih =>
    rw [controlFree_list, writeEdn, rawFree_cons, rawFree_append, rawFree_writeEdnItems]
    simp only [rawFree_cons, rawFree_nil, hbracket, not_false_eq_true, true_and, and_true]
    exact forall₂_congr ih
  | map pairs ih =>
    rw [controlFree_map, writeEdn, rawFree_cons, rawFree_append, rawFree_writeEdnPairs]
    simp only [rawFree_cons, rawFree_nil, hbracket, not_false_eq_true, true_and, and_true]
    exact forall₂_congr fun p hp ↦ and_congr (ih p hp).1 (ih p hp).2

theorem rawFree_writeJsonKey (k : Value) : RawFree (writeJsonKey floats k) ↔ k.ControlFree := by
  rw [writeJsonKey_eq, rawFree_writeQuoted, ← rawFree_writeEdn floats k]
  cases k with
  | str s => rw [jsonKeyText, writeEdn, rawFree_writeQuoted]
  | keyword k => rw [jsonKeyText, writeEdn]
  | int i => rw [jsonKeyText, writeEdn]
  | _ => rfl

theorem rawFree_writeJsonItems (items : List Value) (first : Bool) :
    RawFree (writeJsonItems floats first items) ↔ ∀ v ∈ items, RawFree (writeJson floats v) := by
  have hcomma : ¬ IsRaw ',' := not_isRaw (by decide)
  induction items generalizing first with
  | nil => simp [writeJsonItems, rawFree_nil]
  | cons v items ih =>
    cases first <;>
      simp [writeJsonItems, rawFree_append, rawFree_cons, hcomma, ih]

theorem rawFree_writeJsonPairs (pairs : List (Value × Value)) (first : Bool) :
    RawFree (writeJsonPairs floats first pairs) ↔
      ∀ p ∈ pairs, p.1.ControlFree ∧ RawFree (writeJson floats p.2) := by
  have hcolon : ¬ IsRaw ':' := not_isRaw (by decide)
  have hcomma : ¬ IsRaw ',' := not_isRaw (by decide)
  induction pairs generalizing first with
  | nil => simp [writeJsonPairs, rawFree_nil]
  | cons p pairs ih =>
    obtain ⟨k, v⟩ := p
    cases first <;>
      simp [writeJsonPairs, writeJsonPair, rawFree_append, rawFree_cons, hcolon, hcomma, ih,
        and_assoc, rawFree_writeJsonKey]

/-- The raw control characters of the JSON text of a value are those of its strings and
keywords. -/
theorem rawFree_writeJson (v : Value) : RawFree (writeJson floats v) ↔ v.ControlFree := by
  have hbracket : ¬ IsRaw '[' ∧ ¬ IsRaw ']' ∧ ¬ IsRaw '{' ∧ ¬ IsRaw '}' :=
    ⟨not_isRaw (by decide), not_isRaw (by decide), not_isRaw (by decide), not_isRaw (by decide)⟩
  induction v using Value.induct with
  | nil =>
    rw [writeJson]
    exact iff_of_true rawFree_words.2.1 (by simp [Value.ControlFree, Value.parts])
  | bool b =>
    refine iff_of_true ?_ (by simp [Value.ControlFree, Value.parts])
    rw [writeJson]
    cases b with
    | true => exact rawFree_words.2.2.1
    | false => exact rawFree_words.2.2.2
  | list items ih =>
    rw [controlFree_list, writeJson, rawFree_cons, rawFree_append, rawFree_writeJsonItems]
    simp only [rawFree_cons, rawFree_nil, hbracket, not_false_eq_true, true_and, and_true]
    exact forall₂_congr ih
  | map pairs ih =>
    rw [controlFree_map, writeJson, rawFree_cons, rawFree_append, rawFree_writeJsonPairs]
    simp only [rawFree_cons, rawFree_nil, hbracket, not_false_eq_true, true_and, and_true]
    exact forall₂_congr fun p hp ↦ and_congr_right fun _ ↦ (ih p hp).2
  | keyword k => exact rawFree_writeJsonKey floats (.keyword k)
  | str s => exact rawFree_writeJsonKey floats (.str s)
  | int i => exact rawFree_writeEdn floats (.int i)
  | float f => exact rawFree_writeEdn floats (.float f)

/-! ### Tokens -/

theorem IsDecimal.isNumber {text : List Char} (h : IsDecimal text) : IsNumber text := by
  obtain ⟨sign, whole, fraction, rfl, hsign, hne, hwhole, hzero, hfraction⟩ := h
  refine ⟨sign, whole, fraction, [], by rw [List.append_nil, List.append_assoc], hsign,
    ⟨⟨hne, hwhole⟩, hzero⟩, hfraction.imp_right ?_, .inl rfl⟩
  rintro ⟨digits, rfl, hdigits⟩
  exact ⟨digits, rfl, hdigits⟩

theorem isDecimal_showI64 (i : Int64) : IsDecimal (showI64 i) := by
  have hwhole : Nat.toDigits 10 i.toInt.natAbs ≠ [] ∧
      (∀ c ∈ Nat.toDigits 10 i.toInt.natAbs, c.isDigit) ∧
      ((Nat.toDigits 10 i.toInt.natAbs).head? = some '0' →
        Nat.toDigits 10 i.toInt.natAbs = ['0']) := by
    refine ⟨Nat.toDigits_ne_nil, fun c ↦ Nat.isDigit_of_mem_toDigits (by decide) (by decide),
      fun hhead ↦ ?_⟩
    rw [eq_zero_of_head?_toDigits hhead, Nat.toDigits_zero]
  rw [showI64]
  split_ifs
  · exact ⟨['-'], _, [], by simp, .inr rfl, hwhole.1, hwhole.2.1, hwhole.2.2, .inl rfl⟩
  · exact ⟨[], _, [], by simp, .inl rfl, hwhole.1, hwhole.2.1, hwhole.2.2, .inl rfl⟩

theorem isDecimal_fmtFloat {f : Binary64} (h : f.isFinite) : IsDecimal (fmtFloat floats f) := by
  have hdecimal := floats.decimal f h
  rw [fmtFloat, if_pos h]
  simp only
  split_ifs with hpoint
  · exact hdecimal
  · obtain ⟨sign, whole, fraction, heq, hsign, hne, hwhole, hzero, hfraction⟩ := hdecimal
    rw [not_or] at hpoint
    -- The text has no decimal point, so it has no fraction.
    rcases hfraction with rfl | ⟨digits, rfl, -⟩
    · refine ⟨sign, whole, ['.', '0'], by rw [heq, List.append_nil], hsign, hne, hwhole, hzero, ?_⟩
      exact .inr ⟨['0'], rfl, by decide, List.all_eq_true.mp (by decide)⟩
    · exact absurd (by simp [heq]) hpoint.1

theorem isChars_pushEscaped {s : List Char} (h : RawFree s) : IsChars (pushEscaped s) := by
  induction s with
  | nil => exact .nil
  | cons c s ih =>
    obtain ⟨hc, hs⟩ := rawFree_cons.mp h
    have hcons : pushEscaped (c :: s) = escapeChar c ++ pushEscaped s := rfl
    rw [hcons]
    unfold escapeChar
    split_ifs with hquote hslash hn hr ht
    · exact .escaped (by decide) (ih hs)
    · exact .escaped (by decide) (ih hs)
    · exact .escaped (by decide) (ih hs)
    · exact .escaped (by decide) (ih hs)
    · exact .escaped (by decide) (ih hs)
    · refine .unescaped (fun hcontrol ↦ hc ⟨hcontrol, ?_⟩) hquote hslash (ih hs)
      rintro (rfl | rfl | rfl)
      · exact ht rfl
      · exact hn rfl
      · exact hr rfl

theorem isString_writeQuoted {s : List Char} (h : RawFree s) : IsString (writeQuoted s) :=
  ⟨pushEscaped s, rfl, isChars_pushEscaped h⟩

theorem skips_pushEscaped (s : List Char) : Skips (pushEscaped s) := by
  induction s with
  | nil => exact skips_nil
  | cons c s ih =>
    have hcons : pushEscaped (c :: s) = escapeChar c ++ pushEscaped s := rfl
    rw [hcons]
    refine Skips.append ?_ ih
    unfold escapeChar
    split_ifs with hquote hslash
    · exact skips_escape _
    · exact skips_escape _
    · exact skips_escape _
    · exact skips_escape _
    · exact skips_escape _
    · exact skips_char hquote hslash

theorem scans_writeQuoted (s : List Char) : Scans (writeQuoted s) [] := (skips_pushEscaped s).quoted

variable {floats}

theorem isString_writeJsonKey {k : Value} (h : k.ControlFree) :
    IsString (writeJsonKey floats k) := by
  rw [← rawFree_writeJsonKey floats, writeJsonKey_eq, rawFree_writeQuoted] at h
  rw [writeJsonKey_eq]
  exact isString_writeQuoted h

/-! ### Valid texts -/

/-- The items of an array are derived when each of them is. -/
theorem derives_writeJsonItems {v : Value} {items : List Value}
    (h : ∀ w ∈ v :: items, Derives .value (writeJson floats w)) :
    Derives .items (writeJsonItems floats true (v :: items)) := by
  induction items generalizing v with
  | nil =>
    rw [List.forall_mem_singleton] at h
    simpa [writeJsonItems] using h.single
  | cons w items ih =>
    obtain ⟨hv, hlater⟩ := List.forall_mem_cons.mp h
    have hitems := Derives.items hv.single (ih hlater)
    simpa [writeJsonItems] using hitems

/-- The members of an object are derived when their keys are strings and their values are. -/
theorem derives_writeJsonPairs {p : Value × Value} {pairs : List (Value × Value)}
    (h : ∀ q ∈ p :: pairs, IsString (writeJsonKey floats q.1) ∧
      Derives .value (writeJson floats q.2)) :
    Derives .members (writeJsonPairs floats true (p :: pairs)) := by
  induction pairs generalizing p with
  | nil =>
    obtain ⟨k, v⟩ := p
    rw [List.forall_mem_singleton] at h
    simpa [writeJsonPairs, writeJsonPair] using Derives.pair h.1 h.2
  | cons q pairs ih =>
    obtain ⟨k, v⟩ := p
    obtain ⟨hp, hlater⟩ := List.forall_mem_cons.mp h
    have hmembers := Derives.members (Derives.pair hp.1 hp.2) (ih hlater)
    simpa [writeJsonPairs, writeJsonPair] using hmembers

/-- The text of a value without raw control characters, whose floats outside keys are finite, is
derived. -/
theorem derives_writeJson (v : Value) (hfree : v.ControlFree) (hfinite : v.NumbersFinite) :
    Derives .value (writeJson floats v) := by
  induction v using Value.induct with
  | nil =>
    rw [writeJson]
    exact .null
  | bool b =>
    rw [writeJson]
    cases b with
    | true => exact .true
    | false => exact .false
  | int i =>
    rw [writeJson]
    exact .number (isDecimal_showI64 i).isNumber
  | float f =>
    rw [writeJson]
    exact .number (isDecimal_fmtFloat floats (hfinite f (by simp [Value.valueParts]))).isNumber
  | str s =>
    have hkey : IsString (writeJsonKey floats (.str s)) := isString_writeJsonKey hfree
    exact .string hkey
  | keyword k =>
    have hkey : IsString (writeJsonKey floats (.keyword k)) := isString_writeJsonKey hfree
    exact .string hkey
  | list items ih =>
    rw [controlFree_list] at hfree
    rw [numbersFinite_list] at hfinite
    rw [writeJson]
    cases items with
    | nil => exact .emptyArray isSpace_nil
    | cons v items =>
      exact .array (derives_writeJsonItems fun w hw ↦ ih w hw (hfree w hw) (hfinite w hw))
  | map pairs ih =>
    rw [controlFree_map] at hfree
    rw [numbersFinite_map] at hfinite
    rw [writeJson]
    cases pairs with
    | nil => exact .emptyObject isSpace_nil
    | cons p pairs =>
      exact .object (derives_writeJsonPairs fun q hq ↦ ⟨isString_writeJsonKey (hfree q hq).1,
        (ih q hq).2 (hfree q hq).2 (hfinite q hq)⟩)

/-! ### Invalid texts -/

/-- What the text of a value shows outside strings: an `i` where a float outside keys is not
finite. -/
def Shows (text : List Char) (infinite : Prop) : Prop :=
  ∃ chars, Scans text chars ∧ (infinite → 'i' ∈ chars)

theorem Shows.append {text rest : List Char} {first later : Prop} (htext : Shows text first)
    (hrest : Shows rest later) : Shows (text ++ rest) (first ∨ later) := by
  obtain ⟨chars, hscans, hchars⟩ := htext
  obtain ⟨more, hscans', hmore⟩ := hrest
  exact ⟨chars ++ more, hscans.append hscans',
    Or.rec (List.mem_append_left _ ∘ hchars) (List.mem_append_right _ ∘ hmore)⟩

theorem shows_self {text : List Char} (h : '"' ∉ text) : Shows text False :=
  ⟨text, scans_self h, False.elim⟩

theorem Shows.mono {text : List Char} {first later : Prop} (h : Shows text first)
    (himp : later → first) : Shows text later := by
  obtain ⟨chars, hscans, hchars⟩ := h
  exact ⟨chars, hscans, hchars ∘ himp⟩

theorem quote_notMem_number {text : List Char} (h : ∀ c ∈ text, Interchange.isNumberChar c) :
    '"' ∉ text := fun hquote ↦ absurd (h _ hquote) (by decide)

theorem shows_writeJsonItems {items : List Value}
    (h : ∀ v ∈ items, Shows (writeJson floats v) (¬ v.NumbersFinite)) (first : Bool) :
    Shows (writeJsonItems floats first items) (∃ v ∈ items, ¬ v.NumbersFinite) := by
  induction items generalizing first with
  | nil => exact (shows_self List.not_mem_nil).mono (by simp)
  | cons v items ih =>
    rw [List.forall_mem_cons] at h
    have hlead : Shows (if first then [] else [',']) False := by
      cases first <;> exact shows_self (by decide)
    rw [writeJsonItems]
    refine ((hlead.append h.1).append (ih h.2 false)).mono ?_
    simp

theorem shows_writeJsonPairs {pairs : List (Value × Value)}
    (h : ∀ p ∈ pairs, Shows (writeJson floats p.2) (¬ p.2.NumbersFinite)) (first : Bool) :
    Shows (writeJsonPairs floats first pairs) (∃ p ∈ pairs, ¬ p.2.NumbersFinite) := by
  induction pairs generalizing first with
  | nil => exact (shows_self List.not_mem_nil).mono (by simp)
  | cons p pairs ih =>
    obtain ⟨k, v⟩ := p
    rw [List.forall_mem_cons] at h
    have hlead : Shows (if first then [] else [',']) False := by
      cases first <;> exact shows_self (by decide)
    have hkey : Shows (writeJsonKey floats k) False :=
      ⟨[], writeJsonKey_eq floats k ▸ scans_writeQuoted _, False.elim⟩
    have hcolon : Shows [':'] False := shows_self (by decide)
    rw [writeJsonPairs, writeJsonPair, ← List.singleton_append]
    refine ((hlead.append (hkey.append (hcolon.append h.1))).append (ih h.2 false)).mono ?_
    simp

/-- A float that is not finite shows in the text of a value, unless it is in a key. -/
theorem shows_writeJson (v : Value) : Shows (writeJson floats v) (¬ v.NumbersFinite) := by
  have hscalar {text : List Char} {v : Value} (htext : '"' ∉ text) (hv : v.NumbersFinite) :
      Shows text (¬ v.NumbersFinite) := (shows_self htext).mono fun hinfinite ↦ hinfinite hv
  have hstring {s : List Char} {v : Value} (hv : v.NumbersFinite) :
      Shows (writeQuoted s) (¬ v.NumbersFinite) :=
    ⟨[], scans_writeQuoted s, fun hinfinite ↦ absurd hv hinfinite⟩
  have hwrap {opener closer : Char} {text : List Char} {infinite : Prop} (hopener : opener ≠ '"')
      (hcloser : closer ≠ '"') (htext : Shows text infinite) :
      Shows (opener :: (text ++ [closer])) infinite := by
    have hfirst : Shows [opener] False := shows_self (by simpa using hopener.symm)
    have hlast : Shows [closer] False := shows_self (by simpa using hcloser.symm)
    rw [← List.singleton_append]
    exact (hfirst.append (htext.append hlast)).mono (by simp)
  induction v using Value.induct with
  | nil =>
    exact hscalar (by rw [writeJson]; decide) (by simp [Value.NumbersFinite, Value.valueParts])
  | bool b =>
    refine hscalar ?_ (by simp [Value.NumbersFinite, Value.valueParts])
    rw [writeJson]
    cases b <;> decide
  | int i =>
    refine hscalar ?_ (by simp [Value.NumbersFinite, Value.valueParts])
    exact quote_notMem_number fun c ↦ isNumberChar_of_mem_showI64
  | float f =>
    rw [writeJson]
    by_cases hf : f.isFinite
    · refine hscalar (quote_notMem_number (fmtFloat_finite floats hf).2.1) ?_
      simpa [Value.NumbersFinite, Value.valueParts] using hf
    · rw [fmtFloat, if_neg hf]
      exact ⟨_, scans_self (by decide), fun _ ↦ by decide⟩
  | str s => exact hstring (by simp [Value.NumbersFinite, Value.valueParts])
  | keyword k =>
    exact hstring (s := ':' :: k.toList) (by simp [Value.NumbersFinite, Value.valueParts])
  | list items ih =>
    rw [numbersFinite_list, writeJson]
    exact hwrap (by decide) (by decide) ((shows_writeJsonItems ih true).mono (by simp))
  | map pairs ih =>
    rw [numbersFinite_map, writeJson]
    refine hwrap (by decide) (by decide)
      ((shows_writeJsonPairs (fun p hp ↦ (ih p hp).2) true).mono (by simp))

/-- A text that shows an `i` is not JSON. -/
theorem Shows.not_isText {text : List Char} {infinite : Prop} (h : Shows text infinite)
    (hinfinite : infinite) : ¬ IsText text := by
  intro htext
  obtain ⟨chars, hscans, hchars⟩ := h
  have hshown : 'i' ∈ scan .outside text := hscans.scan_eq ▸ hchars hinfinite
  exact absurd (htext.isTokenChar hshown) (by decide)

/-! ### Histories -/

theorem controlFree_word {name : String}
    (h : name ∈ ["index", "time", "clock", "type", "process", "f", "value", "virtual", "wall",
      "invoke", "ok", "fail", "info"]) : (Value.keyword name).ControlFree := by
  rw [controlFree_keyword]
  revert name
  decide +kernel

theorem controlFree_entryToValue (e : OpEntry) :
    (entryToValue e).ControlFree ↔ RawFree e.f.name.toList ∧ e.value.ControlFree := by
  have hint (i : Int64) : (Value.int i).ControlFree := by simp [Value.ControlFree, Value.parts]
  have hclock : (Value.keyword (clockKw e.time.clock)).ControlFree := by
    cases e.time.clock <;> exact controlFree_word (by decide)
  have hkind : (Value.keyword e.kind.keyword).ControlFree := by
    cases e.kind <;> exact controlFree_word (by decide)
  simp only [entryToValue, controlFree_map, List.forall_mem_cons, List.not_mem_nil, hint, hclock,
    hkind]
  simp [controlFree_word, controlFree_keyword e.f.name]

theorem numbersFinite_entryToValue (e : OpEntry) :
    (entryToValue e).NumbersFinite ↔ e.value.NumbersFinite := by
  have hkeyword (k : String) : (Value.keyword k).NumbersFinite := by
    simp [Value.NumbersFinite, Value.valueParts]
  have hint (i : Int64) : (Value.int i).NumbersFinite := by
    simp [Value.NumbersFinite, Value.valueParts]
  simp [entryToValue, numbersFinite_map, hkeyword, hint]

/-- The text of a history is JSON exactly when its strings, keywords and function names hold no
control character but line feeds, carriage returns and tabs, and its floats outside map keys are
finite. -/
theorem isText_toJepsenJson_iff (floats : FloatText) (h : History) :
    IsText (h.toJepsenJson floats) ↔ ∀ e ∈ h.entries,
      RawFree e.f.name.toList ∧ e.value.ControlFree ∧ e.value.NumbersFinite := by
  have hvalue : h.toJepsenJson floats = writeJson floats (.list (h.entries.map entryToValue)) := rfl
  have hcondition : (∀ e ∈ h.entries,
      RawFree e.f.name.toList ∧ e.value.ControlFree ∧ e.value.NumbersFinite) ↔
      (Value.list (h.entries.map entryToValue)).ControlFree ∧
        (Value.list (h.entries.map entryToValue)).NumbersFinite := by
    rw [controlFree_list, numbersFinite_list, List.forall_mem_map, List.forall_mem_map,
      ← forall₂_and]
    refine forall₂_congr fun e _ ↦ ?_
    rw [controlFree_entryToValue, numbersFinite_entryToValue, and_assoc]
  rw [hvalue, hcondition]
  refine ⟨fun htext ↦ ⟨?_, ?_⟩, fun hvalid ↦ (derives_writeJson _ hvalid.1 hvalid.2).isText⟩
  · rw [← rawFree_writeJson floats]
    exact fun c hc hraw ↦ hraw.2 (htext.printable c hc hraw.1)
  · by_contra hinfinite
    exact (shows_writeJson _).not_isText hinfinite htext

/-- A history whose value is infinite. -/
def infiniteHistory : History where
  entries := [⟨0, .virtualNanos 0, .ok, ⟨0⟩, ⟨"read"⟩, .float ⟨0x7FF0000000000000⟩⟩]

/-- A history whose value holds an escape character. -/
def controlHistory : History where
  entries := [⟨0, .virtualNanos 0, .ok, ⟨0⟩, ⟨"read"⟩, .str "\u001b[0m"⟩]

/-- The texts of both are not JSON. -/
theorem infiniteHistory_not_isText :
    ¬ IsText (infiniteHistory.toJepsenJson sampleFloats) ∧
      ¬ IsText (controlHistory.toJepsenJson sampleFloats) := by
  refine ⟨fun htext ↦ ?_, fun htext ↦ ?_⟩
  · have hshown : 'i' ∈ scan .outside (infiniteHistory.toJepsenJson sampleFloats) := by
      decide +kernel
    exact absurd (htext.isTokenChar hshown) (by decide)
  · have hraw : '\u001b' ∈ controlHistory.toJepsenJson sampleFloats := by decide +kernel
    exact absurd (htext.printable _ hraw (by decide)) (by decide)

end Propsim.Interchange
