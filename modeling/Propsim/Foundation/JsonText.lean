import Mathlib.Data.List.Basic

/-!
# JSON texts

The grammar of RFC 8259: the numbers, the strings, the arrays and the objects, with the white space
that may stand around the structural characters. `IsText` is the whole text, `Derives` the values,
the items of an array and the members of an object.

Two facts bound what a text can hold. A control character in it is a tab, a line feed or a carriage
return (`IsText.printable`). And the characters outside its strings, which `scan` collects, are
those of the numbers, the literals and the structure (`IsText.isTokenChar`).
-/

set_option autoImplicit false
set_option relaxedAutoImplicit false

namespace Propsim.Foundation.JsonText

/-- White space. -/
def IsSpace (text : List Char) : Prop := ∀ c ∈ text, c = ' ' ∨ c = '\t' ∨ c = '\n' ∨ c = '\r'

/-- Digits, at least one. -/
def IsDigits (text : List Char) : Prop := text ≠ [] ∧ ∀ c ∈ text, c.isDigit

/-- Digits without leading zeros. -/
def IsWhole (text : List Char) : Prop := IsDigits text ∧ (text.head? = some '0' → text = ['0'])

/-- The exponent of a number. -/
def IsExponent (text : List Char) : Prop :=
  ∃ e sign digits, text = e :: (sign ++ digits) ∧ (e = 'e' ∨ e = 'E') ∧
    (sign = [] ∨ sign = ['+'] ∨ sign = ['-']) ∧ IsDigits digits

/-- A number: a sign, a whole part, a fraction and an exponent. -/
def IsNumber (text : List Char) : Prop :=
  ∃ sign whole fraction exponent, text = sign ++ (whole ++ (fraction ++ exponent)) ∧
    (sign = [] ∨ sign = ['-']) ∧ IsWhole whole ∧
    (fraction = [] ∨ ∃ digits, fraction = '.' :: digits ∧ IsDigits digits) ∧
    (exponent = [] ∨ IsExponent exponent)

/-- The control characters, which a string has to escape. -/
def IsControl (c : Char) : Prop := c.toNat < 0x20

/-- A hexadecimal digit. -/
def IsHexDigit (c : Char) : Prop := c.isDigit ∨ 'a' ≤ c ∧ c ≤ 'f' ∨ 'A' ≤ c ∧ c ≤ 'F'

/-- The characters of a string, between its quotes. -/
inductive IsChars : List Char → Prop
  | nil : IsChars []
  | unescaped {c : Char} {rest : List Char} (hcontrol : ¬ IsControl c) (hquote : c ≠ '"')
      (hslash : c ≠ '\\') (hrest : IsChars rest) : IsChars (c :: rest)
  | escaped {c : Char} {rest : List Char} (hc : c ∈ ['"', '\\', '/', 'b', 'f', 'n', 'r', 't'])
      (hrest : IsChars rest) : IsChars ('\\' :: c :: rest)
  | unicode {hex rest : List Char} (hlength : hex.length = 4) (hhex : ∀ c ∈ hex, IsHexDigit c)
      (hrest : IsChars rest) : IsChars ('\\' :: 'u' :: (hex ++ rest))

/-- The two-character escapes without their backslashes, and the characters that they stand for. -/
def shortEscapes : List (Char × Char) :=
  [('"', '"'), ('\\', '\\'), ('/', '/'), ('b', '\x08'), ('f', '\x0c'), ('n', '\n'), ('r', '\r'),
    ('t', '\t')]

/-- The value of a hexadecimal digit. -/
def hexDigitValue (c : Char) : ℕ :=
  if c.isDigit then c.toNat - 48 else if 'a' ≤ c then c.toNat - 87 else c.toNat - 55

/-- The number that hexadecimal digits spell. -/
def hexValue (hex : List Char) : ℕ := hex.foldl (fun value c ↦ value * 16 + hexDigitValue c) 0

/-- The first half of a surrogate pair. -/
def IsHighSurrogate (n : ℕ) : Prop := 0xD800 ≤ n ∧ n ≤ 0xDBFF

/-- The second half of a surrogate pair. -/
def IsLowSurrogate (n : ℕ) : Prop := 0xDC00 ≤ n ∧ n ≤ 0xDFFF

/-- The code point of a surrogate pair. -/
def combineSurrogates (high low : ℕ) : ℕ := 0x10000 + (high - 0xD800) * 0x400 + (low - 0xDC00)

/-- Four hexadecimal digits. -/
def IsHex4 (hex : List Char) : Prop := hex.length = 4 ∧ ∀ c ∈ hex, IsHexDigit c

/-- The characters that the text of a string, between its quotes, denotes. A surrogate denotes a
character only together with its other half. -/
inductive Denotes : List Char → List Char → Prop
  | nil : Denotes [] []
  | unescaped {c : Char} {text s : List Char} (hcontrol : ¬ IsControl c) (hquote : c ≠ '"')
      (hslash : c ≠ '\\') (h : Denotes text s) : Denotes (c :: text) (c :: s)
  | escaped {other c : Char} {text s : List Char} (hescape : (other, c) ∈ shortEscapes)
      (h : Denotes text s) : Denotes ('\\' :: other :: text) (c :: s)
  | unicode {hex text s : List Char} (hhex : IsHex4 hex) (hhigh : ¬ IsHighSurrogate (hexValue hex))
      (hlow : ¬ IsLowSurrogate (hexValue hex)) (h : Denotes text s) :
      Denotes ('\\' :: 'u' :: (hex ++ text)) (.ofNat (hexValue hex) :: s)
  | surrogates {high low text s : List Char} (hhex : IsHex4 high) (hhex' : IsHex4 low)
      (hhigh : IsHighSurrogate (hexValue high)) (hlow : IsLowSurrogate (hexValue low))
      (h : Denotes text s) :
      Denotes ('\\' :: 'u' :: (high ++ '\\' :: 'u' :: (low ++ text)))
        (.ofNat (combineSurrogates (hexValue high) (hexValue low)) :: s)

/-- The escapes in the text of a string, without their backslashes. -/
def escapes : List Char → List (List Char)
  | '\\' :: 'u' :: a :: b :: c :: d :: rest => ['u', a, b, c, d] :: escapes rest
  | '\\' :: c :: rest => [c] :: escapes rest
  | _ :: rest => escapes rest
  | [] => []

/-- A string. -/
def IsString (text : List Char) : Prop := ∃ chars, text = '"' :: (chars ++ ['"']) ∧ IsChars chars

/-- What is derived: a value, the items of an array, or the members of an object. -/
inductive Form
  | value
  | items
  | members

/-- The texts that the grammar derives. Items and members come one at least, with commas between
them. -/
inductive Derives : Form → List Char → Prop
  | null : Derives .value ['n', 'u', 'l', 'l']
  | true : Derives .value ['t', 'r', 'u', 'e']
  | false : Derives .value ['f', 'a', 'l', 's', 'e']
  | number {text : List Char} (h : IsNumber text) : Derives .value text
  | string {text : List Char} (h : IsString text) : Derives .value text
  | emptyArray {space : List Char} (h : IsSpace space) : Derives .value ('[' :: (space ++ [']']))
  | array {text : List Char} (h : Derives .items text) : Derives .value ('[' :: (text ++ [']']))
  | emptyObject {space : List Char} (h : IsSpace space) : Derives .value ('{' :: (space ++ ['}']))
  | object {text : List Char} (h : Derives .members text) : Derives .value ('{' :: (text ++ ['}']))
  | item {before text after : List Char} (hbefore : IsSpace before) (h : Derives .value text)
      (hafter : IsSpace after) : Derives .items (before ++ (text ++ after))
  | items {first rest : List Char} (hfirst : Derives .items first) (hrest : Derives .items rest) :
      Derives .items (first ++ ',' :: rest)
  | member {before key mid mid' text after : List Char} (hbefore : IsSpace before)
      (hkey : IsString key) (hmid : IsSpace mid) (hmid' : IsSpace mid') (h : Derives .value text)
      (hafter : IsSpace after) :
      Derives .members (before ++ (key ++ (mid ++ ':' :: (mid' ++ (text ++ after)))))
  | members {first rest : List Char} (hfirst : Derives .members first)
      (hrest : Derives .members rest) : Derives .members (first ++ ',' :: rest)

/-- A JSON text: a value with white space around it. -/
def IsText (text : List Char) : Prop :=
  ∃ before value after, text = before ++ (value ++ after) ∧ IsSpace before ∧
    Derives .value value ∧ IsSpace after

theorem isSpace_nil : IsSpace [] := fun _ hc ↦ absurd hc List.not_mem_nil

theorem Derives.isText {text : List Char} (h : Derives .value text) : IsText text :=
  ⟨[], text, [], by rw [List.append_nil, List.nil_append], isSpace_nil, h, isSpace_nil⟩

/-- One item without white space. -/
theorem Derives.single {text : List Char} (h : Derives .value text) : Derives .items text := by
  have hitem := Derives.item isSpace_nil h isSpace_nil
  rwa [List.append_nil, List.nil_append] at hitem

/-- One member without white space. -/
theorem Derives.pair {key text : List Char} (hkey : IsString key) (h : Derives .value text) :
    Derives .members (key ++ ':' :: text) := by
  have hmember := Derives.member isSpace_nil hkey isSpace_nil isSpace_nil h isSpace_nil
  rwa [List.append_nil, List.nil_append, List.nil_append, List.nil_append] at hmember

/-! ### What strings denote -/

instance (c : Char) : Decidable (IsHexDigit c) :=
  inferInstanceAs (Decidable (c.isDigit ∨ 'a' ≤ c ∧ c ≤ 'f' ∨ 'A' ≤ c ∧ c ≤ 'F'))

instance (n : ℕ) : Decidable (IsHighSurrogate n) :=
  inferInstanceAs (Decidable (0xD800 ≤ n ∧ n ≤ 0xDBFF))

instance (n : ℕ) : Decidable (IsLowSurrogate n) :=
  inferInstanceAs (Decidable (0xDC00 ≤ n ∧ n ≤ 0xDFFF))

/-- A text that denotes characters is one that the grammar derives. -/
theorem Denotes.isChars {text s : List Char} (h : Denotes text s) : IsChars text := by
  induction h with
  | nil => exact .nil
  | unescaped hcontrol hquote hslash _ ih => exact .unescaped hcontrol hquote hslash ih
  | escaped hescape _ ih =>
    refine .escaped ?_ ih
    simp only [shortEscapes, List.mem_cons, Prod.mk.injEq, List.not_mem_nil, or_false] at hescape ⊢
    tauto
  | unicode hhex _ _ _ ih => exact .unicode hhex.1 hhex.2 ih
  | surrogates hhex hhex' _ _ _ ih => exact .unicode hhex.1 hhex.2 (.unicode hhex'.1 hhex'.2 ih)

theorem IsHex4.exists_eq {hex : List Char} (h : IsHex4 hex) :
    ∃ a b c d, hex = [a, b, c, d] := List.length_eq_four.mp h.1

theorem escapes_unescaped {c : Char} (hc : c ≠ '\\') (text : List Char) :
    escapes (c :: text) = escapes text := by
  rw [escapes]
  · rintro a b c d rest rfl
    exact absurd rfl hc
  · rintro c rest rfl
    exact absurd rfl hc

theorem escapes_escaped {c : Char} (hc : c ≠ 'u') (text : List Char) :
    escapes ('\\' :: c :: text) = [c] :: escapes text := by
  rw [escapes]
  rintro a b c d rest rfl
  exact absurd rfl hc

theorem escapes_unicode {hex : List Char} (h : IsHex4 hex) (text : List Char) :
    escapes ('\\' :: 'u' :: (hex ++ text)) = ('u' :: hex) :: escapes text := by
  obtain ⟨a, b, c, d, rfl⟩ := h.exists_eq
  rfl

/-! ### Control characters -/

/-- The control characters that are white space. -/
def IsSpaceControl (c : Char) : Prop := c = '\t' ∨ c = '\n' ∨ c = '\r'

instance (c : Char) : Decidable (IsControl c) := inferInstanceAs (Decidable (c.toNat < 0x20))

instance (c : Char) : Decidable (IsSpaceControl c) :=
  inferInstanceAs (Decidable (c = '\t' ∨ c = '\n' ∨ c = '\r'))

/-- A text whose control characters are white space. -/
def Printable (text : List Char) : Prop := ∀ c ∈ text, IsControl c → IsSpaceControl c

theorem printable_append {text rest : List Char} :
    Printable (text ++ rest) ↔ Printable text ∧ Printable rest := List.forall_mem_append

theorem printable_cons {c : Char} {rest : List Char} :
    Printable (c :: rest) ↔ (IsControl c → IsSpaceControl c) ∧ Printable rest :=
  List.forall_mem_cons

theorem IsSpace.printable {text : List Char} (h : IsSpace text) : Printable text := by
  intro c hc hcontrol
  rcases h c hc with rfl | hspace
  · exact absurd hcontrol (by simp [IsControl])
  · exact hspace

/-- The characters of numbers. -/
def isNumberChar (c : Char) : Bool :=
  c.isDigit || c == '-' || c == '+' || c == '.' || c == 'e' || c == 'E'

/-- A number is made of the characters of numbers. -/
theorem IsNumber.isNumberChar {text : List Char} (h : IsNumber text) :
    ∀ c ∈ text, isNumberChar c := by
  obtain ⟨sign, whole, fraction, exponent, rfl, hsign, hwhole, hfraction, hexponent⟩ := h
  have hdigits {digits : List Char} (hdigits : IsDigits digits) :
      ∀ c ∈ digits, JsonText.isNumberChar c :=
    fun c hc ↦ by simp [JsonText.isNumberChar, hdigits.2 c hc]
  simp only [List.forall_mem_append]
  refine ⟨?_, hdigits hwhole.1, ?_, ?_⟩
  · rcases hsign with rfl | rfl <;> exact List.all_eq_true.mp (by decide)
  · rcases hfraction with rfl | ⟨digits, rfl, hfraction⟩
    · exact fun c hc ↦ absurd hc List.not_mem_nil
    · exact List.forall_mem_cons.mpr ⟨by decide, hdigits hfraction⟩
  · rcases hexponent with rfl | ⟨e, sign, digits, rfl, he, hsign, hexponent⟩
    · exact fun c hc ↦ absurd hc List.not_mem_nil
    · rw [List.forall_mem_cons, List.forall_mem_append]
      refine ⟨?_, ?_, hdigits hexponent⟩
      · rcases he with rfl | rfl <;> decide
      · rcases hsign with rfl | rfl | rfl <;> exact List.all_eq_true.mp (by decide)

theorem not_isControl_of_isNumberChar {c : Char} (h : isNumberChar c) : ¬ IsControl c := by
  simp only [isNumberChar, Bool.or_eq_true, beq_iff_eq] at h
  rcases h with ((((hdigit | rfl) | rfl) | rfl) | rfl) | rfl
  · have hlow : 48 ≤ c.toNat := by
      simp only [Char.isDigit, Bool.and_eq_true, decide_eq_true_eq] at hdigit
      exact hdigit.1
    unfold IsControl
    omega
  all_goals simp [IsControl]

theorem IsHexDigit.not_isControl {c : Char} (h : IsHexDigit c) : ¬ IsControl c := by
  rcases h with hdigit | ⟨hlow, -⟩ | ⟨hlow, -⟩
  · exact not_isControl_of_isNumberChar (by simp [isNumberChar, hdigit])
  · have hle : 97 ≤ c.toNat := hlow
    unfold IsControl
    omega
  · have hle : 65 ≤ c.toNat := hlow
    unfold IsControl
    omega

theorem printable_of_not_isControl {text : List Char} (h : ∀ c ∈ text, ¬ IsControl c) :
    Printable text := fun c hc hcontrol ↦ absurd hcontrol (h c hc)

theorem IsChars.not_isControl {text : List Char} (h : IsChars text) :
    ∀ c ∈ text, ¬ IsControl c := by
  induction h with
  | nil => exact fun c hc ↦ absurd hc List.not_mem_nil
  | unescaped hcontrol _ _ _ ih => exact List.forall_mem_cons.mpr ⟨hcontrol, ih⟩
  | @escaped c rest hc _ ih =>
    have hescape : ¬ IsControl c := by
      revert c
      simp [IsControl]
    exact List.forall_mem_cons.mpr ⟨by simp [IsControl], List.forall_mem_cons.mpr ⟨hescape, ih⟩⟩
  | unicode _ hhex _ ih =>
    exact List.forall_mem_cons.mpr ⟨by simp [IsControl], List.forall_mem_cons.mpr
      ⟨by simp [IsControl], List.forall_mem_append.mpr
        ⟨fun c hc ↦ (hhex c hc).not_isControl, ih⟩⟩⟩

theorem IsString.printable {text : List Char} (h : IsString text) : Printable text := by
  obtain ⟨chars, rfl, hchars⟩ := h
  refine printable_of_not_isControl (List.forall_mem_cons.mpr
    ⟨by simp [IsControl], List.forall_mem_append.mpr ⟨hchars.not_isControl, ?_⟩⟩)
  simp [IsControl]

theorem Derives.printable {form : Form} {text : List Char} (h : Derives form text) :
    Printable text := by
  have hplain {c : Char} (hc : ¬ IsControl c) : IsControl c → IsSpaceControl c :=
    fun hcontrol ↦ absurd hcontrol hc
  have hwrap {opener closer : Char} {text : List Char} (hopener : ¬ IsControl opener)
      (hcloser : ¬ IsControl closer) (htext : Printable text) :
      Printable (opener :: (text ++ [closer])) :=
    printable_cons.mpr ⟨hplain hopener, printable_append.mpr ⟨htext, printable_cons.mpr
      ⟨hplain hcloser, fun c hc ↦ absurd hc List.not_mem_nil⟩⟩⟩
  have hcomma {first rest : List Char} (hfirst : Printable first) (hrest : Printable rest) :
      Printable (first ++ ',' :: rest) :=
    printable_append.mpr ⟨hfirst, printable_cons.mpr ⟨hplain (by simp [IsControl]), hrest⟩⟩
  induction h with
  | null => exact printable_of_not_isControl (by simp [IsControl])
  | true => exact printable_of_not_isControl (by simp [IsControl])
  | false => exact printable_of_not_isControl (by simp [IsControl])
  | number h =>
    exact printable_of_not_isControl fun c hc ↦ not_isControl_of_isNumberChar (h.isNumberChar c hc)
  | string h => exact h.printable
  | emptyArray h => exact hwrap (by simp [IsControl]) (by simp [IsControl]) h.printable
  | array _ ih => exact hwrap (by simp [IsControl]) (by simp [IsControl]) ih
  | emptyObject h => exact hwrap (by simp [IsControl]) (by simp [IsControl]) h.printable
  | object _ ih => exact hwrap (by simp [IsControl]) (by simp [IsControl]) ih
  | item hbefore _ hafter ih =>
    exact printable_append.mpr ⟨hbefore.printable, printable_append.mpr ⟨ih, hafter.printable⟩⟩
  | items _ _ ihfirst ihrest => exact hcomma ihfirst ihrest
  | member hbefore hkey hmid hmid' _ hafter ih =>
    simp only [printable_append, printable_cons]
    exact ⟨hbefore.printable, hkey.printable, hmid.printable, hplain (by simp [IsControl]),
      hmid'.printable, ih, hafter.printable⟩
  | members _ _ ihfirst ihrest => exact hcomma ihfirst ihrest

/-- A control character of a JSON text is a tab, a line feed or a carriage return. -/
theorem IsText.printable {text : List Char} (h : IsText text) : Printable text := by
  obtain ⟨before, value, after, rfl, hbefore, hvalue, hafter⟩ := h
  exact printable_append.mpr
    ⟨hbefore.printable, printable_append.mpr ⟨hvalue.printable, hafter.printable⟩⟩

/-! ### Outside strings -/

/-- Where a scanner of a text is: outside strings, in a string, or behind a backslash in one. -/
inductive Mode
  | outside
  | inside
  | escape
  deriving DecidableEq

/-- The mode after a character. -/
def Mode.next : Mode → Char → Mode
  | .outside, c => if c = '"' then .inside else .outside
  | .inside, c => if c = '"' then .outside else if c = '\\' then .escape else .inside
  | .escape, _ => .inside

/-- The characters outside strings. -/
def scan (mode : Mode) : List Char → List Char
  | [] => []
  | c :: rest =>
    if mode = .outside ∧ c ≠ '"' then c :: scan (mode.next c) rest else scan (mode.next c) rest

/-- A text that starts and ends outside strings, with the characters that are outside. -/
def Scans (text chars : List Char) : Prop :=
  ∀ rest, scan .outside (text ++ rest) = chars ++ scan .outside rest

/-- A text that starts and ends in a string. -/
def Skips (text : List Char) : Prop := ∀ rest, scan .inside (text ++ rest) = scan .inside rest

theorem Scans.append {text rest chars more : List Char} (htext : Scans text chars)
    (hrest : Scans rest more) : Scans (text ++ rest) (chars ++ more) := by
  intro tail
  rw [List.append_assoc, htext, hrest, List.append_assoc]

theorem Scans.scan_eq {text chars : List Char} (h : Scans text chars) :
    scan .outside text = chars := by
  have hall := h []
  rwa [List.append_nil, scan, List.append_nil] at hall

/-- A text without quotes is outside strings. -/
theorem scans_self {text : List Char} (h : '"' ∉ text) : Scans text text := by
  intro rest
  induction text with
  | nil => rfl
  | cons c text ih =>
    rw [List.mem_cons, not_or] at h
    have hc : c ≠ '"' := fun heq ↦ h.1 heq.symm
    rw [List.cons_append, List.cons_append, scan, if_pos ⟨rfl, hc⟩, Mode.next, if_neg hc, ih h.2]

/-- A text that follows a character without a quote. -/
theorem Scans.cons {text chars : List Char} {c : Char} (hc : c ≠ '"') (h : Scans text chars) :
    Scans (c :: text) (c :: chars) := by
  have hself : Scans [c] [c] := scans_self (by simpa using hc.symm)
  exact hself.append h

theorem skips_nil : Skips [] := fun _ ↦ rfl

theorem Skips.append {text rest : List Char} (htext : Skips text) (hrest : Skips rest) :
    Skips (text ++ rest) := by
  intro tail
  rw [List.append_assoc, htext, hrest]

/-- A character of a string that is neither its quote nor a backslash. -/
theorem skips_char {c : Char} (hquote : c ≠ '"') (hslash : c ≠ '\\') : Skips [c] := by
  intro rest
  rw [List.singleton_append, scan, if_neg (by simp), Mode.next, if_neg hquote, if_neg hslash]

/-- A character of a string behind a backslash. -/
theorem skips_escape (c : Char) : Skips ['\\', c] := by
  intro rest
  rw [List.cons_append, scan, if_neg (by simp), List.singleton_append, scan,
    if_neg (by simp [Mode.next])]
  rfl

/-- A quoted string has no character outside strings. -/
theorem Skips.quoted {text : List Char} (h : Skips text) : Scans ('"' :: (text ++ ['"'])) [] := by
  intro rest
  rw [List.cons_append, scan, if_neg (by simp), List.append_assoc]
  exact h (['"'] ++ rest)

theorem IsChars.skips {text : List Char} (h : IsChars text) : Skips text := by
  induction h with
  | nil => exact skips_nil
  | unescaped _ hquote hslash _ ih => exact (skips_char hquote hslash).append ih
  | escaped _ _ ih => exact (skips_escape _).append ih
  | unicode _ hhex _ ih =>
    have hdigits {hex : List Char} (hhex : ∀ c ∈ hex, IsHexDigit c) : Skips hex := by
      induction hex with
      | nil => exact skips_nil
      | cons c hex ihhex =>
        rw [List.forall_mem_cons] at hhex
        refine (skips_char ?_ ?_).append (ihhex hhex.2)
        · rintro rfl
          exact absurd hhex.1 (by simp [IsHexDigit])
        · rintro rfl
          exact absurd hhex.1 (by simp [IsHexDigit])
    exact (skips_escape 'u').append ((hdigits hhex).append ih)

theorem IsString.scans {text : List Char} (h : IsString text) : Scans text [] := by
  obtain ⟨chars, rfl, hchars⟩ := h
  exact hchars.skips.quoted

/-- The characters of white space, numbers, literals and the structure. -/
def isTokenChar (c : Char) : Bool :=
  isNumberChar c || c ∈ [' ', '\t', '\n', '\r', '[', ']', '{', '}', ',', ':', 'n', 'u', 'l', 't',
    'r', 'e', 'f', 'a', 's']

/-- A text whose characters outside strings are those of tokens. -/
def Tokens (text : List Char) : Prop := ∃ chars, Scans text chars ∧ ∀ c ∈ chars, isTokenChar c

theorem Tokens.append {text rest : List Char} (htext : Tokens text) (hrest : Tokens rest) :
    Tokens (text ++ rest) := by
  obtain ⟨chars, hscans, hchars⟩ := htext
  obtain ⟨more, hscans', hmore⟩ := hrest
  exact ⟨chars ++ more, hscans.append hscans', List.forall_mem_append.mpr ⟨hchars, hmore⟩⟩

theorem tokens_self {text : List Char} (h : text.all isTokenChar) : Tokens text := by
  rw [List.all_eq_true] at h
  exact ⟨text, scans_self fun hquote ↦ absurd (h _ hquote) (by decide), h⟩

theorem Tokens.cons {c : Char} {text : List Char} (hc : isTokenChar c) (h : Tokens text) :
    Tokens (c :: text) := by
  have hself : Tokens [c] := tokens_self (by simpa using hc)
  exact hself.append h

theorem IsSpace.tokens {text : List Char} (h : IsSpace text) : Tokens text :=
  tokens_self (List.all_eq_true.mpr fun c hc ↦ by
    rcases h c hc with rfl | rfl | rfl | rfl <;> decide)

theorem IsString.tokens {text : List Char} (h : IsString text) : Tokens text :=
  ⟨[], h.scans, fun _ hc ↦ absurd hc List.not_mem_nil⟩

theorem Derives.tokens {form : Form} {text : List Char} (h : Derives form text) : Tokens text := by
  have hwrap {opener closer : Char} {text : List Char} (hopener : isTokenChar opener)
      (hcloser : isTokenChar closer) (htext : Tokens text) :
      Tokens (opener :: (text ++ [closer])) :=
    .cons hopener (htext.append (tokens_self (by simpa using hcloser)))
  induction h with
  | null => exact tokens_self (by decide)
  | true => exact tokens_self (by decide)
  | false => exact tokens_self (by decide)
  | number h =>
    exact tokens_self (List.all_eq_true.mpr fun c hc ↦ by simp [isTokenChar, h.isNumberChar c hc])
  | string h => exact h.tokens
  | emptyArray h => exact hwrap (by decide) (by decide) h.tokens
  | array _ ih => exact hwrap (by decide) (by decide) ih
  | emptyObject h => exact hwrap (by decide) (by decide) h.tokens
  | object _ ih => exact hwrap (by decide) (by decide) ih
  | item hbefore _ hafter ih => exact hbefore.tokens.append (ih.append hafter.tokens)
  | items _ _ ihfirst ihrest => exact ihfirst.append (.cons (by decide) ihrest)
  | member hbefore hkey hmid hmid' _ hafter ih =>
    exact hbefore.tokens.append (hkey.tokens.append (hmid.tokens.append
      (.cons (by decide) (hmid'.tokens.append (ih.append hafter.tokens)))))
  | members _ _ ihfirst ihrest => exact ihfirst.append (.cons (by decide) ihrest)

theorem IsText.tokens {text : List Char} (h : IsText text) : Tokens text := by
  obtain ⟨before, value, after, rfl, hbefore, hvalue, hafter⟩ := h
  exact hbefore.tokens.append (hvalue.tokens.append hafter.tokens)

/-- The characters outside the strings of a JSON text are those of tokens. -/
theorem IsText.isTokenChar {text : List Char} (h : IsText text) {c : Char}
    (hc : c ∈ scan .outside text) : isTokenChar c := by
  obtain ⟨chars, hscans, hchars⟩ := h.tokens
  rw [hscans.scan_eq] at hc
  exact hchars c hc

end Propsim.Foundation.JsonText
