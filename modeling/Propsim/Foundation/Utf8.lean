import Mathlib.Data.List.Basic

/-!
# Texts as UTF-8 bytes

A cursor in a text is the list of the bytes from it on. Slicing a text at a position that is not a
character boundary panics, so a slice is a partial operation here (`slice`): it is defined on the
bytes of a text between two boundaries, and reads back the characters that were encoded.
-/

set_option autoImplicit false
set_option relaxedAutoImplicit false

namespace Propsim.Foundation

/-- The UTF-8 bytes of a text. -/
def utf8 (text : List Char) : List UInt8 := text.flatMap String.utf8EncodeChar

@[simp] theorem utf8_nil : utf8 [] = [] := rfl

theorem utf8_cons (c : Char) (text : List Char) :
    utf8 (c :: text) = String.utf8EncodeChar c ++ utf8 text := rfl

@[simp] theorem utf8_append (a b : List Char) : utf8 (a ++ b) = utf8 a ++ utf8 b :=
  List.flatMap_append

/-- An ASCII character is its own byte. -/
theorem utf8EncodeChar_ascii {c : Char} (h : c.toNat < 128) :
    String.utf8EncodeChar c = [c.toUInt8] := by
  have hle : c.val.toNat ≤ 0x7f := Nat.le_of_lt_succ h
  rw [String.utf8EncodeChar, if_pos hle]
  rfl

theorem utf8_cons_ascii {c : Char} (h : c.toNat < 128) (text : List Char) :
    utf8 (c :: text) = c.toUInt8 :: utf8 text := by
  rw [utf8_cons, utf8EncodeChar_ascii h]
  rfl

theorem toNat_toUInt8 {c : Char} (h : c.toNat < 128) : c.toUInt8.toNat = c.toNat := by
  rw [Char.toUInt8, UInt32.toNat_toUInt8]
  exact Nat.mod_eq_of_lt (Nat.lt_trans h (by decide))

/-- What holds of the 256 bytes holds of every byte. -/
theorem forall_byte {P : UInt8 → Prop} (h : ∀ n : Fin 256, P (.ofNat n)) (b : UInt8) : P b := by
  have hb := h ⟨b.toNat, b.toNat_lt⟩
  rwa [UInt8.ofNat_toNat] at hb

/-- What holds of the 128 ASCII characters holds of every ASCII character. -/
theorem forall_ascii {P : Char → Prop} (h : ∀ n : Fin 128, P (.ofNat n)) {c : Char}
    (hc : c.toNat < 128) : P c := by
  have hchar := h ⟨c.toNat, hc⟩
  rwa [Char.ofNat_toNat] at hchar

/-- Every other character begins with a byte from `0xC0` on, which continuation bytes follow. -/
theorem utf8EncodeChar_wide {c : Char} (h : 128 ≤ c.toNat) :
    ∃ b bs, String.utf8EncodeChar c = b :: bs ∧ 0xC0 ≤ b ∧ bs ≠ [] ∧
      ∀ b' ∈ bs, 0x80 ≤ b' ∧ b' < 0xC0 := by
  have hgt : ¬ c.val.toNat ≤ 0x7f := Nat.not_le.mpr h
  have hlead {n : ℕ} (hn : n < 0x40) : 0xC0 ≤ UInt8.ofNat (n + 0xC0) := by
    rw [UInt8.le_iff_toNat_le, UInt8.toNat_ofNat', Nat.mod_eq_of_lt (by omega)]
    exact Nat.le_add_left _ _
  have hnext (n : ℕ) : 0x80 ≤ UInt8.ofNat (n % 0x40 + 0x80) ∧
      UInt8.ofNat (n % 0x40 + 0x80) < 0xC0 := by
    have hn := Nat.mod_lt n (show 0 < 0x40 by decide)
    rw [UInt8.le_iff_toNat_le, UInt8.lt_iff_toNat_lt, UInt8.toNat_ofNat',
      Nat.mod_eq_of_lt (by omega)]
    exact ⟨Nat.le_add_left _ _, Nat.add_lt_add_right hn 0x80⟩
  rw [String.utf8EncodeChar, if_neg hgt]
  split_ifs
  · refine ⟨_, _, rfl, hlead (by omega), List.cons_ne_nil _ _, ?_⟩
    exact List.forall_mem_singleton.mpr (hnext _)
  · refine ⟨UInt8.ofNat (c.val.toNat / 4096 % 0x10 + 0x20 + 0xC0), _, rfl, hlead (by omega),
      List.cons_ne_nil _ _, ?_⟩
    exact List.forall_mem_cons.mpr ⟨hnext _, List.forall_mem_singleton.mpr (hnext _)⟩
  · refine ⟨UInt8.ofNat (c.val.toNat / 262144 % 0x08 + 0x30 + 0xC0), _, rfl, hlead (by omega),
      List.cons_ne_nil _ _, ?_⟩
    exact List.forall_mem_cons.mpr ⟨hnext _,
      List.forall_mem_cons.mpr ⟨hnext _, List.forall_mem_singleton.mpr (hnext _)⟩⟩

/-- No byte of a character other than an ASCII one is below `0x80`. -/
theorem le_of_mem_utf8EncodeChar {c : Char} (h : 128 ≤ c.toNat) {b : UInt8}
    (hb : b ∈ String.utf8EncodeChar c) : 0x80 ≤ b := by
  obtain ⟨lead, rest, heq, hlead, -, hrest⟩ := utf8EncodeChar_wide h
  rw [heq, List.mem_cons] at hb
  rcases hb with rfl | hb
  · exact UInt8.le_trans (by decide) hlead
  · exact (hrest b hb).1

/-- An ASCII character is in a text when its byte is among the bytes of the text. -/
theorem mem_of_toUInt8_mem_utf8 {c : Char} (hc : c.toNat < 128) {text : List Char}
    (h : c.toUInt8 ∈ utf8 text) : c ∈ text := by
  obtain ⟨d, hd, hb⟩ := List.mem_flatMap.mp h
  by_cases hascii : d.toNat < 128
  · rw [utf8EncodeChar_ascii hascii, List.mem_singleton] at hb
    have hnat := congrArg UInt8.toNat hb
    rw [toNat_toUInt8 hascii, toNat_toUInt8 hc] at hnat
    exact Char.toNat_inj.mp hnat ▸ hd
  · have hle := le_of_mem_utf8EncodeChar (Nat.not_lt.mp hascii) hb
    rw [UInt8.le_iff_toNat_le, toNat_toUInt8 hc] at hle
    exact absurd hc (Nat.not_lt.mpr hle)

/-- The first byte of a character is that of an ASCII character only for that character. -/
theorem exists_utf8EncodeChar_eq_cons (c : Char) :
    ∃ b bs, String.utf8EncodeChar c = b :: bs ∧
      ∀ d : Char, d.toNat < 128 → b = d.toUInt8 → c = d := by
  by_cases h : c.toNat < 128
  · refine ⟨_, _, utf8EncodeChar_ascii h, fun d hd heq ↦ ?_⟩
    have hnat := congrArg UInt8.toNat heq
    rw [toNat_toUInt8 h, toNat_toUInt8 hd] at hnat
    exact Char.toNat_inj.mp hnat
  · obtain ⟨b, bs, heq, hb, -, -⟩ := utf8EncodeChar_wide (Nat.not_lt.mp h)
    refine ⟨b, bs, heq, fun d hd hbd ↦ ?_⟩
    subst hbd
    rw [UInt8.le_iff_toNat_le, toNat_toUInt8 hd] at hb
    exact absurd (Nat.lt_of_le_of_lt hb hd) (by decide)

/-! ### Boundaries -/

/-- `str::is_char_boundary`, at a cursor. -/
def isBoundary : List UInt8 → Bool
  | [] => true
  | b :: _ => !(0x80 ≤ b && b < 0xC0)

/-- A character begins at a boundary. -/
theorem isBoundary_utf8EncodeChar (c : Char) (rest : List UInt8) :
    isBoundary (String.utf8EncodeChar c ++ rest) = true := by
  by_cases h : c.toNat < 128
  · rw [utf8EncodeChar_ascii h]
    have hlt : c.toUInt8 < 0x80 := by
      rw [UInt8.lt_iff_toNat_lt, toNat_toUInt8 h]
      exact h
    simp [isBoundary, hlt]
  · obtain ⟨b, bs, heq, hb, -, -⟩ := utf8EncodeChar_wide (Nat.not_lt.mp h)
    simp [heq, isBoundary, hb]

theorem isBoundary_utf8 {text : List Char} {rest : List UInt8} (h : isBoundary rest) :
    isBoundary (utf8 text ++ rest) = true := by
  cases text with
  | nil => exact h
  | cons c text =>
    rw [utf8_cons, List.append_assoc]
    exact isBoundary_utf8EncodeChar c _

/-! ### Decoding -/

/-- The text whose bytes these are. -/
def fromUtf8 (bytes : List UInt8) : Option (List Char) :=
  bytes.toByteArray.utf8Decode?.map (·.toList)

theorem fromUtf8_utf8 (text : List Char) : fromUtf8 (utf8 text) = some text := by
  have h : (utf8 text).toByteArray = text.utf8Encode := rfl
  rw [fromUtf8, h, List.utf8Decode?_utf8Encode]
  rfl

theorem fromUtf8_eq_some_iff {bytes : List UInt8} {text : List Char} :
    fromUtf8 bytes = some text ↔ utf8 text = bytes := by
  constructor
  · intro h
    obtain ⟨chars, hchars, rfl⟩ := Option.map_eq_some_iff.mp h
    have hsome : bytes.toByteArray.utf8Decode?.isSome := by rw [hchars]; rfl
    have hencode := ByteArray.utf8Encode_get_utf8Decode? (h := hsome)
    simp only [hchars, Option.get_some] at hencode
    exact List.toByteArray_inj.mp hencode
  · rintro rfl
    exact fromUtf8_utf8 text

theorem utf8_injective : Function.Injective utf8 := fun a b h ↦
  Option.some.inj ((fromUtf8_utf8 a).symm.trans ((congrArg fromUtf8 h).trans (fromUtf8_utf8 b)))

/-- The text of the next bytes from a cursor on, between two boundaries. -/
def slice (bytes : List UInt8) (count : ℕ) : Option (List Char) :=
  if count ≤ bytes.length && isBoundary bytes && isBoundary (bytes.drop count) then
    fromUtf8 (bytes.take count)
  else none

theorem slice_utf8 {text : List Char} {rest : List UInt8} (h : isBoundary rest) :
    slice (utf8 text ++ rest) (utf8 text).length = some text := by
  rw [slice, isBoundary_utf8 h, List.drop_left, List.take_left, h, fromUtf8_utf8]
  simp

/-- A slice has the bytes that it covers. -/
theorem utf8_of_slice {bytes : List UInt8} {count : ℕ} {text : List Char}
    (h : slice bytes count = some text) : utf8 text = bytes.take count := by
  unfold slice at h
  split_ifs at h with hboundary
  exact fromUtf8_eq_some_iff.mp h

/-- The next character from a cursor on, and the cursor after it. -/
def nextChar (bytes : List UInt8) : Option (Char × List UInt8) :=
  if isBoundary bytes then
    (bytes.toByteArray.utf8DecodeChar? 0).map fun c ↦ (c, bytes.drop c.utf8Size)
  else none

theorem nextChar_utf8EncodeChar (c : Char) (rest : List UInt8) :
    nextChar (String.utf8EncodeChar c ++ rest) = some (c, rest) := by
  have hdecode : (String.utf8EncodeChar c ++ rest).toByteArray.utf8DecodeChar? 0 = some c := by
    rw [List.toByteArray_append]
    exact ByteArray.utf8DecodeChar?_utf8EncodeChar_append
  rw [nextChar, if_pos (isBoundary_utf8EncodeChar c rest), hdecode, Option.map_some,
    ← String.length_utf8EncodeChar, List.drop_left]

theorem length_lt_of_nextChar {bytes rest : List UInt8} {c : Char}
    (h : nextChar bytes = some (c, rest)) : rest.length < bytes.length := by
  unfold nextChar at h
  split_ifs at h with hboundary
  obtain ⟨c', hdecode, heq⟩ := Option.map_eq_some_iff.mp h
  obtain ⟨rfl, rfl⟩ := Prod.mk.inj heq
  have hsize := ByteArray.le_size_of_utf8DecodeChar?_eq_some hdecode
  have hpos := Char.utf8Size_pos c'
  rw [List.size_toByteArray] at hsize
  rw [List.length_drop]
  omega

/-! ### Cursors -/

/-- The bytes of a text. A cursor at a character boundary of a text has such bytes behind it. -/
def IsUtf8 (bytes : List UInt8) : Prop := ∃ text, utf8 text = bytes

theorem isUtf8_utf8 (text : List Char) : IsUtf8 (utf8 text) := ⟨text, rfl⟩

/-- A cursor is at the end or at a character. -/
theorem IsUtf8.eq_nil_or_char {bytes : List UInt8} (h : IsUtf8 bytes) :
    bytes = [] ∨ ∃ c text, bytes = String.utf8EncodeChar c ++ utf8 text := by
  obtain ⟨_ | ⟨c, text⟩, rfl⟩ := h
  · exact .inl rfl
  · exact .inr ⟨c, text, rfl⟩

/-- A byte below `0x80` is a character. -/
theorem IsUtf8.tail {b : UInt8} {rest : List UInt8} (h : IsUtf8 (b :: rest)) (hb : b < 0x80) :
    IsUtf8 rest := by
  obtain hnil | ⟨c, text, heq⟩ := h.eq_nil_or_char
  · cases hnil
  · by_cases hc : c.toNat < 128
    · rw [utf8EncodeChar_ascii hc] at heq
      exact (List.cons.inj heq).2 ▸ isUtf8_utf8 text
    · obtain ⟨lead, bs, hencode, hlead, -, -⟩ := utf8EncodeChar_wide (Nat.not_lt.mp hc)
      rw [hencode] at heq
      obtain rfl := (List.cons.inj heq).1
      exact absurd (UInt8.lt_of_le_of_lt hlead hb) (by decide)

/-- Bytes below `0x80` are characters. -/
theorem IsUtf8.after_ascii {token rest : List UInt8} (h : IsUtf8 (token ++ rest))
    (htoken : ∀ b ∈ token, b < 0x80) : IsUtf8 rest := by
  induction token with
  | nil => exact h
  | cons b token ih =>
    rw [List.forall_mem_cons] at htoken
    exact ih (h.tail htoken.1) htoken.2

/-- The next character of a cursor. -/
theorem IsUtf8.exists_nextChar {b : UInt8} {rest : List UInt8} (h : IsUtf8 (b :: rest)) :
    ∃ c tail, nextChar (b :: rest) = some (c, tail) ∧ IsUtf8 tail := by
  obtain hnil | ⟨c, text, heq⟩ := h.eq_nil_or_char
  · cases hnil
  · rw [heq]
    exact ⟨c, utf8 text, nextChar_utf8EncodeChar c _, isUtf8_utf8 text⟩

/-- There is no character behind the first byte of a character that is not an ASCII one. -/
theorem IsUtf8.nextChar_eq_none {b : UInt8} {rest : List UInt8} (h : IsUtf8 (b :: rest))
    (hb : 0x80 ≤ b) : ∃ b' tail, rest = b' :: tail ∧ 0x80 ≤ b' ∧ nextChar rest = none := by
  obtain hnil | ⟨c, text, heq⟩ := h.eq_nil_or_char
  · cases hnil
  · by_cases hc : c.toNat < 128
    · rw [utf8EncodeChar_ascii hc] at heq
      obtain rfl := (List.cons.inj heq).1
      rw [UInt8.le_iff_toNat_le, toNat_toUInt8 hc] at hb
      exact absurd hc (Nat.not_lt.mpr hb)
    · obtain ⟨lead, bs, hencode, -, hne, hbs⟩ := utf8EncodeChar_wide (Nat.not_lt.mp hc)
      rw [hencode, List.cons_append] at heq
      obtain ⟨b', tail, rfl⟩ := List.exists_cons_of_ne_nil hne
      obtain ⟨hlow, hhigh⟩ := hbs b' List.mem_cons_self
      refine ⟨b', tail ++ utf8 text, (List.cons.inj heq).2, hlow, ?_⟩
      rw [(List.cons.inj heq).2, nextChar, List.cons_append, isBoundary]
      simp [hlow, hhigh]

/-- A scan for bytes that are alike on the characters beyond ASCII stops at a boundary. -/
theorem exists_scan_eq {p : UInt8 → Bool} {wide : Bool} (hp : ∀ b, 0x80 ≤ b → p b = wide)
    (text : List Char) : ∃ token rest, (utf8 text).takeWhile p = utf8 token ∧
      (utf8 text).dropWhile p = utf8 rest := by
  induction text with
  | nil => exact ⟨[], [], rfl, rfl⟩
  | cons c text ih =>
    obtain ⟨token, rest, htake, hdrop⟩ := ih
    have hpassed (h : ∀ b ∈ String.utf8EncodeChar c, p b = true) :
        ∃ token rest, (utf8 (c :: text)).takeWhile p = utf8 token ∧
          (utf8 (c :: text)).dropWhile p = utf8 rest := by
      refine ⟨c :: token, rest, ?_, ?_⟩
      · rw [utf8_cons, List.takeWhile_append_of_pos h, htake, utf8_cons]
      · rw [utf8_cons, List.dropWhile_append_of_pos h, hdrop]
    have hstopped {b : UInt8} {bs : List UInt8} (heq : String.utf8EncodeChar c = b :: bs)
        (hb : p b = false) : ∃ token rest, (utf8 (c :: text)).takeWhile p = utf8 token ∧
          (utf8 (c :: text)).dropWhile p = utf8 rest := by
      refine ⟨[], c :: text, ?_, ?_⟩
      · rw [utf8_cons, heq, List.cons_append, List.takeWhile_cons, hb]
        rfl
      · rw [utf8_cons, heq, List.cons_append, List.dropWhile_cons, hb]
        rfl
    by_cases hc : c.toNat < 128
    · have hencode := utf8EncodeChar_ascii hc
      cases hb : p c.toUInt8 with
      | true => exact hpassed (by rw [hencode]; simpa using hb)
      | false => exact hstopped hencode hb
    · obtain ⟨b, bs, hencode, hlead, -, -⟩ := utf8EncodeChar_wide (Nat.not_lt.mp hc)
      cases wide with
      | true => exact hpassed fun b' hb' ↦ hp b' (le_of_mem_utf8EncodeChar (Nat.not_lt.mp hc) hb')
      | false => exact hstopped hencode (hp b (UInt8.le_trans (by decide) hlead))

/-- What a scan passes over is a token, and what follows it is at a boundary. -/
theorem IsUtf8.scan {p : UInt8 → Bool} {wide : Bool} (hp : ∀ b, 0x80 ≤ b → p b = wide)
    {bytes : List UInt8} (h : IsUtf8 bytes) : IsUtf8 (bytes.dropWhile p) ∧
      ∃ token, slice bytes (bytes.takeWhile p).length = some token := by
  obtain ⟨text, rfl⟩ := h
  obtain ⟨token, rest, htake, hdrop⟩ := exists_scan_eq hp text
  have heq : utf8 text = utf8 token ++ utf8 rest := by
    rw [← htake, ← hdrop, List.takeWhile_append_dropWhile]
  have hboundary : isBoundary (utf8 rest) := by
    simpa using @isBoundary_utf8 rest [] rfl
  refine ⟨hdrop ▸ isUtf8_utf8 rest, token, ?_⟩
  rw [htake, heq]
  exact slice_utf8 hboundary

/-- There is no boundary inside a character. -/
theorem not_isBoundary_inside {c : Char} {count : ℕ} (hzero : count ≠ 0)
    (hlt : count < (String.utf8EncodeChar c).length) (rest : List UInt8) :
    ¬ isBoundary ((String.utf8EncodeChar c ++ rest).drop count) := by
  by_cases hc : c.toNat < 128
  · rw [utf8EncodeChar_ascii hc, List.length_singleton] at hlt
    omega
  · obtain ⟨b, bs, heq, -, -, hbs⟩ := utf8EncodeChar_wide (Nat.not_lt.mp hc)
    obtain ⟨k, rfl⟩ := Nat.exists_eq_succ_of_ne_zero hzero
    rw [heq, List.length_cons] at hlt
    have hk : k < bs.length := by omega
    obtain ⟨hlow, hhigh⟩ := hbs bs[k] (List.getElem_mem hk)
    rw [heq, List.cons_append, Nat.succ_eq_add_one, List.drop_succ_cons,
      List.drop_append_of_le_length (Nat.le_of_lt hk), List.drop_eq_getElem_cons hk,
      List.cons_append, isBoundary]
    simp [hlow, hhigh]

/-- The bytes of a text up to a boundary and from it on are those of texts. -/
theorem IsUtf8.split {bytes : List UInt8} (h : IsUtf8 bytes) {count : ℕ}
    (hcount : count ≤ bytes.length) (hboundary : isBoundary (bytes.drop count)) :
    IsUtf8 (bytes.drop count) ∧ ∃ token, slice bytes count = some token := by
  obtain ⟨text, rfl⟩ := h
  have hsplit : ∃ token rest, text = token ++ rest ∧ (utf8 token).length = count := by
    induction text generalizing count with
    | nil => exact ⟨[], [], rfl, (Nat.le_zero.mp hcount).symm⟩
    | cons c text ih =>
      by_cases hzero : count = 0
      · exact ⟨[], c :: text, rfl, hzero.symm⟩
      · rw [utf8_cons, List.length_append] at hcount
        by_cases hlong : (String.utf8EncodeChar c).length ≤ count
        · rw [utf8_cons, List.drop_append, List.drop_eq_nil_of_le hlong, List.nil_append]
            at hboundary
          obtain ⟨token, rest, rfl, hlength⟩ := ih (by omega) hboundary
          exact ⟨c :: token, rest, rfl, by rw [utf8_cons, List.length_append]; omega⟩
        · exact absurd hboundary (not_isBoundary_inside hzero (Nat.not_le.mp hlong) (utf8 text))
  obtain ⟨token, rest, rfl, rfl⟩ := hsplit
  rw [utf8_append, List.drop_left] at hboundary ⊢
  exact ⟨isUtf8_utf8 rest, token, slice_utf8 hboundary⟩

end Propsim.Foundation
