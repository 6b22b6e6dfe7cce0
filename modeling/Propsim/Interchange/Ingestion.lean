import Propsim.Interchange.Jepsen
import Propsim.Interchange.JsonBoundaries

/-!
# Which texts are ingested without a panic

`from_jepsen` returns a history or an error exactly on the texts whose reader reaches no bad string:
none with a character beyond ASCII behind a backslash, and in JSON none with four bytes after an
escaping `u` that end inside a character.
-/

set_option autoImplicit false
set_option relaxedAutoImplicit false

namespace Propsim.Interchange

open Foundation

variable {floats : FloatText}

/-- A computation that returns a value or an error. -/
def Settles {α : Type} (result : Except Stop α) : Prop :=
  (∃ a, result = .ok a) ∨ ∃ e, result = .error (.error e)

theorem settles_iff {α : Type} {result : Except Stop α} :
    Settles result ↔ result ≠ .error .panic ∧ result ≠ .error .hang := by
  unfold Settles
  rcases result with (e | _ | _) | a <;> simp

theorem settles_fail {α : Type} (msg : String) : Settles (fail (α := α) msg) := .inr ⟨_, rfl⟩

theorem settles_ok {α : Type} (a : α) : Settles (.ok a) := .inl ⟨a, rfl⟩

/-- What is computed from a value. -/
theorem Settles.bind {α β : Type} {result : Except Stop α} {next : α → Except Stop β}
    (h : Settles result) (hnext : ∀ a, Settles (next a)) : Settles (result >>= next) := by
  obtain ⟨a, rfl⟩ | ⟨e, rfl⟩ := h
  · exact hnext a
  · exact .inr ⟨e, rfl⟩

/-! ### Entries -/

theorem requireInt_settles (v : Option Value) (field : String) : Settles (requireInt v field) := by
  unfold requireInt
  split
  · exact settles_ok _
  · split
    · exact settles_ok _
    · exact settles_fail _
  · exact settles_fail _

theorem clockFromKw_settles (s : String) : Settles (clockFromKw s) := by
  unfold clockFromKw
  split_ifs
  · exact settles_ok _
  · exact settles_ok _
  · exact settles_fail _

theorem readClock_settles (v : Option Value) : Settles (readClock v) := by
  unfold readClock
  split
  · exact clockFromKw_settles _
  · exact clockFromKw_settles _
  · exact settles_fail _
  · exact settles_ok _

theorem kindFromKw_settles (k : String) : Settles (kindFromKw k) := by
  unfold kindFromKw
  split
  · exact settles_ok _
  · exact settles_fail _

theorem readKind_settles (v : Option Value) : Settles (readKind v) := by
  unfold readKind
  split
  · exact kindFromKw_settles _
  · exact kindFromKw_settles _
  · exact settles_fail _

theorem readFunction_settles (v : Option Value) : Settles (readFunction v) := by
  unfold readFunction
  split
  · exact settles_ok _
  · exact settles_ok _
  · exact settles_fail _

/-- A value is an entry or an error. -/
theorem valueToEntry_settles (v : Value) : Settles (valueToEntry v) := by
  unfold valueToEntry
  split
  · refine (requireInt_settles _ _).bind fun _ ↦ (requireInt_settles _ _).bind fun _ ↦
      (readClock_settles _).bind fun _ ↦ (readKind_settles _).bind fun _ ↦
      (requireInt_settles _ _).bind fun _ ↦ (readFunction_settles _).bind fun _ ↦ settles_ok _
  · exact settles_fail _

theorem mapM_settles {α β : Type} {f : α → Except Stop β} {items : List α}
    (h : ∀ a ∈ items, Settles (f a)) : Settles (items.mapM f) := by
  rw [settles_iff, ne_eq, ne_eq, mapM_eq_error_iff, mapM_eq_error_iff]
  constructor
  · rintro ⟨before, a, after, rfl, -, ha⟩
    exact (settles_iff.mp (h a (by simp))).1 ha
  · rintro ⟨before, a, after, rfl, -, ha⟩
    exact (settles_iff.mp (h a (by simp))).2 ha

theorem historyOfValue_settles (v : Value) : Settles (historyOfValue v) := by
  unfold historyOfValue
  split
  · obtain ⟨entries, hentries⟩ | ⟨e, he⟩ :=
      mapM_settles fun item (_ : item ∈ _) ↦ valueToEntry_settles item
    · rw [hentries]
      exact settles_ok _
    · rw [he]
      exact .inr ⟨e, rfl⟩
  · exact settles_fail _

/-! ### Texts -/

/-- The reader of a text reaches a bad string: in the one sequence that it is, or in the first line
that is no entry. -/
def ReachesBadString (floats : FloatText) (s : List Char) : Prop :=
  if isSequence (trimStart s) then
    if looksLikeJson (trimStart s) then
      Json.Escapes floats .value (Json.skipWs (utf8 (trimStart s)))
    else Edn.Escapes floats .value (Edn.skipWs (utf8 (trimStart s)))
  else ∃ before line after, entryLines s = before ++ line :: after ∧
    (∀ entry ∈ before, ∃ e, lineToEntry floats entry = .ok e) ∧
      Edn.Escapes floats .value (Edn.skipWs (utf8 line))

theorem lineToEntry_panics_iff {line : List Char} :
    (lineToEntry floats line = .error .panic ↔
      Edn.Escapes floats .value (Edn.skipWs (utf8 line))) ∧
      lineToEntry floats line ≠ .error .hang := by
  obtain ⟨hpanic, hhang⟩ := @Edn.parse_panics_iff floats line
  rw [← hpanic]
  unfold lineToEntry
  cases hparse : Edn.parse floats line with
  | error e =>
    rw [hparse] at hhang
    simpa [bind, Except.bind] using hhang
  | ok v =>
    have hentry := settles_iff.mp (valueToEntry_settles v)
    simpa [bind, Except.bind] using hentry

theorem sequence_settles_iff {result : Except Stop Value} {bad : Prop}
    (h : (result = .error .panic ↔ bad) ∧ result ≠ .error .hang) :
    Settles (result >>= historyOfValue) ↔ ¬ bad := by
  obtain ⟨hpanic, hhang⟩ := h
  rw [← hpanic]
  cases result with
  | error e =>
    have hne : e ≠ .hang := by simpa using hhang
    simp [settles_iff, bind, Except.bind, hne]
  | ok v => exact iff_of_true (historyOfValue_settles v) (by simp)

/-- Ingesting a text returns a history or an error exactly where the reader reaches no bad
string. -/
theorem fromJepsen_settles_iff (floats : FloatText) (s : List Char) :
    Settles (fromJepsen floats s) ↔ ¬ ReachesBadString floats s := by
  unfold fromJepsen ReachesBadString
  simp only
  split_ifs with hsequence hjson
  · exact sequence_settles_iff Json.parse_panics_iff
  · exact sequence_settles_iff Edn.parse_panics_iff
  · have hlines : Settles (((entryLines s).mapM (lineToEntry floats)).map History.mk) ↔
        Settles ((entryLines s).mapM (lineToEntry floats)) := by
      cases (entryLines s).mapM (lineToEntry floats) <;> simp [Settles, Except.map]
    rw [hlines, settles_iff, ne_eq, ne_eq, mapM_eq_error_iff, mapM_eq_error_iff]
    simp only [lineToEntry_panics_iff.1]
    refine and_iff_left ?_
    rintro ⟨before, line, after, -, -, hline⟩
    exact lineToEntry_panics_iff.2 hline

/-- A line whose value escapes a character beyond ASCII. -/
def escapedAccent : List Char :=
  "\x7b:index 0, :time 0, :type :ok, :process 0, :f :read, :value \"\\é\"\x7d".toList

/-- An array whose code point ends inside a character. -/
def cutCodePoint : List Char := "[\x7b\"f\":\"\\u00aé\"\x7d]".toList

/-- Neither text is ingested, nor is an error returned. -/
theorem escapedAccent_not_settles :
    ¬ Settles (fromJepsen sampleFloats escapedAccent) ∧
      ¬ Settles (fromJepsen sampleFloats cutCodePoint) := by
  have hpanic : fromJepsen sampleFloats escapedAccent = .error .panic ∧
      fromJepsen sampleFloats cutCodePoint = .error .panic := by
    decide +kernel
  rw [settles_iff, settles_iff, hpanic.1, hpanic.2]
  simp

end Propsim.Interchange
