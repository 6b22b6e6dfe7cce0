import Propsim.Interchange.JsonRoundTrip

/-!
# Where the two wires agree

The values that JSON reads back unchanged are those whose keys are strings or keywords and whose
strings do not begin with a colon. On these the two texts of a history mean the same.
-/

set_option autoImplicit false
set_option relaxedAutoImplicit false

namespace Propsim.Interchange

open Foundation

/-- A key that JSON can write as it is. -/
def Value.IsTextual : Value → Prop
  | .str _ => True
  | .keyword _ => True
  | _ => False

instance : DecidablePred Value.IsTextual := fun v ↦ by
  cases v <;> unfold Value.IsTextual <;> infer_instance

/-- Every map key nested in a value is a string or a keyword. -/
def Value.KeysTextual (v : Value) : Prop :=
  ∀ pairs, .map pairs ∈ v.parts → ∀ p ∈ pairs, p.1.IsTextual

/-- No string nested in a value begins with a colon. -/
def Value.StringsPlain (v : Value) : Prop := ∀ s, .str s ∈ v.parts → s.toList.head? ≠ some ':'

/-- Every map key of a history is a string or a keyword. -/
def History.KeysTextual (h : History) : Prop := ∀ e ∈ h.entries, e.value.KeysTextual

/-- No string of a history begins with a colon. -/
def History.StringsPlain (h : History) : Prop := ∀ e ∈ h.entries, e.value.StringsPlain

instance (v : Value) : Decidable v.KeysTextual :=
  decidable_of_iff ((v.parts.all fun w ↦
    match w with | .map pairs => pairs.all fun p ↦ decide p.1.IsTextual | _ => true) = true) (by
    refine List.all_eq_true.trans ⟨fun h pairs hpairs p hp ↦
      of_decide_eq_true (List.all_eq_true.mp (h _ hpairs) p hp), fun h w hw ↦ ?_⟩
    cases w with
    | map pairs => exact List.all_eq_true.mpr fun p hp ↦ decide_eq_true (h pairs hw p hp)
    | _ => rfl)

instance (v : Value) : Decidable v.StringsPlain :=
  decidable_of_iff ((v.parts.all fun w ↦
    match w with | .str s => decide (s.toList.head? ≠ some ':') | _ => true) = true) (by
    refine List.all_eq_true.trans ⟨fun h s hs ↦ of_decide_eq_true (h _ hs), fun h w hw ↦ ?_⟩
    cases w with
    | str s => exact decide_eq_true (h s hw)
    | _ => rfl)

instance (h : History) : Decidable h.KeysTextual :=
  inferInstanceAs (Decidable (∀ e ∈ h.entries, e.value.KeysTextual))

instance (h : History) : Decidable h.StringsPlain :=
  inferInstanceAs (Decidable (∀ e ∈ h.entries, e.value.StringsPlain))

theorem normalString_eq_iff (s : String) :
    normalString s = .str s ↔ s.toList.head? ≠ some ':' := by
  unfold normalString
  split
  · rename_i hcolon
    simp [hcolon]
  · rename_i hother
    refine iff_of_true rfl fun hhead ↦ ?_
    obtain ⟨rest, hrest⟩ := List.head?_eq_some_iff.mp hhead
    exact hother rest hrest

variable {floats : FloatText}

/-- A key is in normal form when it is a keyword or a plain string. -/
theorem jsonNormalKey_eq_iff (k : Value) :
    k.jsonNormalKey floats = k ↔ k.IsTextual ∧ k.StringsPlain := by
  cases k with
  | str s => simp [Value.jsonNormalKey, normalString_eq_iff, Value.IsTextual, Value.StringsPlain,
      Value.parts]
  | _ => simp [Value.jsonNormalKey, Value.IsTextual, Value.StringsPlain, Value.parts]

theorem Value.IsTextual.keysTextual {k : Value} (h : k.IsTextual) : k.KeysTextual := by
  intro pairs hpairs
  cases k with
  | str s => simp [Value.parts] at hpairs
  | keyword k => simp [Value.parts] at hpairs
  | _ => cases h

theorem keysTextual_list {items : List Value} :
    (Value.list items).KeysTextual ↔ ∀ v ∈ items, v.KeysTextual := by
  refine ⟨fun h v hv pairs hpairs ↦ h pairs (Value.mem_parts_list.mpr (.inr ⟨v, hv, hpairs⟩)),
    fun h pairs hpairs ↦ ?_⟩
  obtain heq | ⟨v, hv, hpart⟩ := Value.mem_parts_list.mp hpairs
  · cases heq
  · exact h v hv pairs hpart

theorem keysTextual_map {pairs : List (Value × Value)} :
    (Value.map pairs).KeysTextual ↔ ∀ p ∈ pairs, p.1.IsTextual ∧ p.2.KeysTextual := by
  refine ⟨fun h p hp ↦ ⟨h pairs (Value.mem_parts_map.mpr (.inl rfl)) p hp, fun inner hinner ↦
    h inner (Value.mem_parts_map.mpr (.inr ⟨p, hp, .inr hinner⟩))⟩, fun h inner hinner ↦ ?_⟩
  obtain heq | ⟨p, hp, hpart | hpart⟩ := Value.mem_parts_map.mp hinner
  · obtain rfl := Value.map.inj heq
    exact fun p hp ↦ (h p hp).1
  · exact (h p hp).1.keysTextual inner hpart
  · exact (h p hp).2 inner hpart

theorem stringsPlain_list {items : List Value} :
    (Value.list items).StringsPlain ↔ ∀ v ∈ items, v.StringsPlain := by
  refine ⟨fun h v hv s hs ↦ h s (Value.mem_parts_list.mpr (.inr ⟨v, hv, hs⟩)), fun h s hs ↦ ?_⟩
  obtain heq | ⟨v, hv, hpart⟩ := Value.mem_parts_list.mp hs
  · cases heq
  · exact h v hv s hpart

theorem stringsPlain_map {pairs : List (Value × Value)} :
    (Value.map pairs).StringsPlain ↔ ∀ p ∈ pairs, p.1.StringsPlain ∧ p.2.StringsPlain := by
  refine ⟨fun h p hp ↦ ⟨fun s hs ↦ h s (Value.mem_parts_map.mpr (.inr ⟨p, hp, .inl hs⟩)),
    fun s hs ↦ h s (Value.mem_parts_map.mpr (.inr ⟨p, hp, .inr hs⟩))⟩, fun h s hs ↦ ?_⟩
  obtain heq | ⟨p, hp, hpart | hpart⟩ := Value.mem_parts_map.mp hs
  · cases heq
  · exact (h p hp).1 s hpart
  · exact (h p hp).2 s hpart

/-- A map leaves a list as it is when it leaves every item as it is. -/
theorem map_eq_self_iff {α : Type*} {f : α → α} {l : List α} :
    l.map f = l ↔ ∀ a ∈ l, f a = a := by
  simpa using List.map_inj_left (f := f) (g := id) (l := l)

/-- A value is in normal form when its keys are strings or keywords and its strings are plain. -/
theorem jsonNormal_eq_iff (v : Value) :
    v.jsonNormal floats = v ↔ v.KeysTextual ∧ v.StringsPlain := by
  induction v using Value.induct with
  | str s => simp [Value.jsonNormal, normalString_eq_iff, Value.KeysTextual, Value.StringsPlain,
      Value.parts]
  | list items ih =>
    rw [Value.jsonNormal, Value.list.injEq, Value.jsonNormalItems_eq, map_eq_self_iff,
      keysTextual_list, stringsPlain_list, ← forall₂_and]
    exact forall₂_congr ih
  | map pairs ih =>
    rw [Value.jsonNormal, Value.map.injEq, Value.jsonNormalPairs_eq, map_eq_self_iff,
      keysTextual_map, stringsPlain_map, ← forall₂_and]
    refine forall₂_congr fun p hp ↦ ?_
    rw [Prod.ext_iff, jsonNormalKey_eq_iff, (ih p hp).2]
    exact and_and_and_comm
  | _ => simp [Value.jsonNormal, Value.KeysTextual, Value.StringsPlain, Value.parts]

/-- A history is in normal form when its values are. -/
theorem history_jsonNormal_eq_iff (h : History) :
    h.jsonNormal floats = h ↔ h.KeysTextual ∧ h.StringsPlain := by
  obtain ⟨entries⟩ := h
  rw [History.jsonNormal, History.mk.injEq, map_eq_self_iff, History.KeysTextual,
    History.StringsPlain, ← forall₂_and]
  refine forall₂_congr fun e _ ↦ ?_
  rw [← @jsonNormal_eq_iff floats e.value]
  obtain ⟨index, time, kind, process, f, value⟩ := e
  simp

/-- A history with plain names, textual keys and finite floats is read the same from both of its
texts exactly when none of its strings begins with a colon. -/
theorem wires_agree_iff (floats : FloatText) (h : History) (hnames : h.NamesPlain)
    (hkeys : h.KeysTextual) (hfinite : h.FloatsFinite) :
    fromJepsen floats (h.toJepsenJson floats) = fromJepsen floats (h.toJepsenEdn floats) ↔
      h.StringsPlain := by
  rw [fromJepsen_lines hnames hfinite, fromJepsen_array hfinite, Except.ok.injEq,
    history_jsonNormal_eq_iff]
  exact and_iff_right hkeys

/-- A read that returned the string `:x`. -/
def colonHistory : History where
  entries := [⟨0, .virtualNanos 0, .ok, ⟨0⟩, ⟨"read"⟩, .str ":x"⟩]

/-- The two texts of this history mean different values. -/
theorem colonHistory_differs :
    colonHistory.NamesPlain ∧ colonHistory.KeysTextual ∧ colonHistory.FloatsFinite ∧
      fromJepsen sampleFloats (colonHistory.toJepsenJson sampleFloats) ≠
        fromJepsen sampleFloats (colonHistory.toJepsenEdn sampleFloats) := by
  decide +kernel

/-- A history with a map whose keys are a string and a keyword. -/
def textualHistory : History where
  entries := [⟨0, .virtualNanos 0, .ok, ⟨0⟩, ⟨"read"⟩,
    .map [(.str "a:b", .list [.keyword "x", .str "\u0001"]), (.keyword "k", .float oneAndHalf)]⟩]

theorem textualHistory_agrees :
    fromJepsen sampleFloats (textualHistory.toJepsenJson sampleFloats) =
        fromJepsen sampleFloats (textualHistory.toJepsenEdn sampleFloats) ↔
      textualHistory.StringsPlain :=
  wires_agree_iff sampleFloats textualHistory (by decide +kernel) (by decide +kernel)
    (by decide +kernel)

end Propsim.Interchange
