import Mathlib.Data.List.Basic

/-!
# Fallible computations

Inversion of a successful `Except` computation into its successful parts, the invariant rule of a
fallible loop over a list, and computations that return the same for every fuel that is enough.
-/

set_option autoImplicit false
set_option relaxedAutoImplicit false

namespace Propsim.Foundation

universe u

variable {ε : Type*} {α β : Type u}

/-- A sequence of two computations succeeds exactly when both do. -/
theorem except_bind_eq_ok {x : Except ε α} {f : α → Except ε β} {b : β} :
    (x >>= f) = .ok b ↔ ∃ a, x = .ok a ∧ f a = .ok b := by
  cases x with
  | error e => simp [bind, Except.bind]
  | ok a => simp [bind, Except.bind]

/-- A sequence of two computations fails exactly when one of them does. -/
theorem except_bind_eq_error {x : Except ε α} {f : α → Except ε β} {e : ε} :
    (x >>= f) = .error e ↔ x = .error e ∨ ∃ a, x = .ok a ∧ f a = .error e := by
  cases x with
  | error e' => simp [bind, Except.bind]
  | ok a => simp [bind, Except.bind]

theorem except_pure_ne_error {a : α} {e : ε} : (pure a : Except ε α) ≠ .error e := by
  simp [pure, Except.pure]

theorem except_pure_eq_ok {a b : α} : (pure a : Except ε α) = .ok b ↔ a = b := by
  simp [pure, Except.pure]

theorem except_map_eq_ok {x : Except ε α} {f : α → β} {b : β} :
    (f <$> x) = .ok b ↔ ∃ a, x = .ok a ∧ f a = b := by
  cases x with
  | error e => simp [Functor.map, Except.map]
  | ok a => simp [Functor.map, Except.map]

/-- A computation that undoes a function undoes it on a list. -/
theorem mapM_map_eq_ok {f : β → Except ε α} {g : α → β} {items : List α}
    (h : ∀ a ∈ items, f (g a) = .ok a) : (items.map g).mapM f = .ok items := by
  induction items with
  | nil => rfl
  | cons a items ih =>
    rw [List.forall_mem_cons] at h
    rw [List.map_cons, List.mapM_cons, h.1, ih h.2]
    rfl

theorem mapM_cons_eq_ok {f : α → Except ε β} {a : α} {items : List α} {b : β} {results : List β} :
    (a :: items).mapM f = .ok (b :: results) ↔ f a = .ok b ∧ items.mapM f = .ok results := by
  rw [List.mapM_cons, except_bind_eq_ok]
  constructor
  · rintro ⟨b', hb, hrest⟩
    obtain ⟨results', hresults, heq⟩ := except_bind_eq_ok.mp hrest
    obtain ⟨rfl, rfl⟩ := List.cons.inj (except_pure_eq_ok.mp heq)
    exact ⟨hb, hresults⟩
  · rintro ⟨hb, hresults⟩
    exact ⟨b, hb, except_bind_eq_ok.mpr ⟨results, hresults, rfl⟩⟩

/-- Every result of a list is the result of an item. -/
theorem exists_of_mapM_eq_ok {f : α → Except ε β} {items : List α} {results : List β}
    (h : items.mapM f = .ok results) {b : β} (hb : b ∈ results) : ∃ a ∈ items, f a = .ok b := by
  induction items generalizing results with
  | nil =>
    obtain rfl := Except.ok.inj h
    cases hb
  | cons a items ih =>
    cases results with
    | nil => cases hb
    | cons b' results =>
      obtain ⟨ha, hrest⟩ := mapM_cons_eq_ok.mp h
      rcases List.mem_cons.mp hb with rfl | hb
      · exact ⟨a, List.mem_cons_self, ha⟩
      · obtain ⟨a', ha', hfa⟩ := ih hrest hb
        exact ⟨a', List.mem_cons_of_mem _ ha', hfa⟩

/-- A list fails as its first item that fails. -/
theorem mapM_eq_error_iff {f : α → Except ε β} {items : List α} {e : ε} :
    items.mapM f = .error e ↔ ∃ before a after, items = before ++ a :: after ∧
      (∀ b ∈ before, ∃ r, f b = .ok r) ∧ f a = .error e := by
  induction items with
  | nil =>
    refine iff_of_false (by simp [pure, Except.pure]) ?_
    rintro ⟨before, a, after, heq, -⟩
    cases before <;> cases heq
  | cons a items ih =>
    rw [List.mapM_cons]
    cases ha : f a with
    | error e' =>
      refine ⟨fun h ↦ ⟨[], a, items, rfl, fun b hb ↦ absurd hb List.not_mem_nil, ?_⟩, ?_⟩
      · rw [ha, Except.error.inj h]
      rintro ⟨_ | ⟨b, before⟩, a', after, heq, hbefore, ha'⟩
      · obtain ⟨rfl, -⟩ := List.cons.inj heq
        rw [Except.error.inj (ha.symm.trans ha')]
        rfl
      · obtain ⟨rfl, -⟩ := List.cons.inj heq
        obtain ⟨r, hr⟩ := hbefore a List.mem_cons_self
        cases ha.symm.trans hr
    | ok r =>
      have hrest : (do let r ← Except.ok r; let rs ← items.mapM f; pure (r :: rs)) = .error e ↔
          items.mapM f = .error e := by
        cases items.mapM f <;> simp [bind, Except.bind, pure, Except.pure]
      rw [hrest, ih]
      constructor
      · rintro ⟨before, a', after, rfl, hbefore, ha'⟩
        exact ⟨a :: before, a', after, rfl, List.forall_mem_cons.mpr ⟨⟨r, ha⟩, hbefore⟩, ha'⟩
      · rintro ⟨_ | ⟨b, before⟩, a', after, heq, hbefore, ha'⟩
        · obtain ⟨rfl, -⟩ := List.cons.inj heq
          cases ha.symm.trans ha'
        · obtain ⟨-, rfl⟩ := List.cons.inj heq
          exact ⟨before, a', after, rfl, (List.forall_mem_cons.mp hbefore).2, ha'⟩

/-- A list with one kind of error fails exactly when one of its items does. -/
theorem mapM_eq_error_iff_exists {f : α → Except ε β} {items : List α} {e : ε}
    (honly : ∀ a ∈ items, ∀ e', f a = .error e' → e' = e) :
    items.mapM f = .error e ↔ ∃ a ∈ items, f a = .error e := by
  induction items with
  | nil => simp [except_pure_ne_error]
  | cons a items ih =>
    rw [List.forall_mem_cons] at honly
    rw [List.mapM_cons, except_bind_eq_error]
    cases ha : f a with
    | error e' =>
      obtain rfl := honly.1 e' ha
      exact iff_of_true (.inl rfl) ⟨a, List.mem_cons_self, ha⟩
    | ok b =>
      have hrest (rest : Except ε (List β)) :
          (do let bs ← rest; pure (b :: bs)) = .error e ↔ rest = .error e := by
        rw [except_bind_eq_error]
        exact or_iff_left fun ⟨_, _, hpure⟩ ↦ except_pure_ne_error hpure
      simp only [reduceCtorEq, false_or, Except.ok.injEq, exists_eq_left', hrest, ih honly.2,
        List.mem_cons, exists_eq_or_imp, ha]

/-- What every turn of a fallible loop preserves, the loop preserves. -/
theorem foldlM_invariant {ι : Type*} {f : α → ι → Except ε α} {items : List ι}
    {P : α → Prop} (hstep : ∀ item ∈ items, ∀ a a', P a → f a item = .ok a' → P a') {a b : α}
    (ha : P a) (h : items.foldlM f a = .ok b) : P b := by
  induction items generalizing a with
  | nil =>
    rw [List.foldlM_nil, except_pure_eq_ok] at h
    exact h ▸ ha
  | cons item rest ih =>
    rw [List.foldlM_cons, except_bind_eq_ok] at h
    obtain ⟨a', hturn, hrest⟩ := h
    exact ih (fun i hi ↦ hstep i (List.mem_cons_of_mem _ hi))
      (hstep item (by simp) a a' ha hturn) hrest

/-- What the turn of one item of a fallible loop brings about, and every turn keeps, holds in the
end. -/
theorem foldlM_visits {ι : Type*} {f : α → ι → Except ε α} {items : List ι} {item : ι}
    {P Q : α → Prop} (hitem : item ∈ items)
    (hP : ∀ other a a', P a → f a other = .ok a' → P a')
    (hvisit : ∀ a a', P a → f a item = .ok a' → Q a')
    (hQ : ∀ other a a', P a → Q a → f a other = .ok a' → Q a') {a b : α} (ha : P a)
    (h : items.foldlM f a = .ok b) : Q b := by
  obtain ⟨before, rest, rfl⟩ := List.append_of_mem hitem
  rw [List.foldlM_append, except_bind_eq_ok] at h
  obtain ⟨reached, hbefore, h⟩ := h
  rw [List.foldlM_cons, except_bind_eq_ok] at h
  obtain ⟨visited, hturn, hrest⟩ := h
  have hreached : P reached := foldlM_invariant (fun other _ a a' ↦ hP other a a') ha hbefore
  have hend : P b ∧ Q b := foldlM_invariant (P := fun a ↦ P a ∧ Q a)
    (fun other _ a a' h hturn ↦ ⟨hP other a a' h.1 hturn, hQ other a a' h.1 h.2 hturn⟩)
    ⟨hP item _ _ hreached hturn, hvisit _ _ hreached hturn⟩ hrest
  exact hend.2

/-! ### Postconditions -/

/-- The computation succeeds with a value of which `P` holds, or fails with an error of which `Q`
holds. -/
def Ensures {ε α : Type*} (P : α → Prop) (Q : ε → Prop) : Except ε α → Prop
  | .ok a => P a
  | .error e => Q e

section Ensures

variable {P : α → Prop} {Q : ε → Prop} {x : Except ε α}

theorem Ensures.mono {P' : α → Prop} (h : Ensures P Q x) (hP : ∀ a, P a → P' a) :
    Ensures P' Q x := by
  cases x with
  | error _ => exact h
  | ok a => exact hP a h

theorem Ensures.of_error {e : ε} (h : Ensures P Q x) (hx : x = .error e) : Q e := by
  subst hx
  exact h

/-- A computation with a result ensures what holds of the result. -/
theorem ensures_of_eq (hok : ∀ a, x = .ok a → P a) (herror : ∀ e, x = .error e → Q e) :
    Ensures P Q x := by
  cases x with
  | error e => exact herror e rfl
  | ok a => exact hok a rfl

theorem Ensures.bind {R : β → Prop} {f : α → Except ε β} (hx : Ensures P Q x)
    (hf : ∀ a, x = .ok a → P a → Ensures R Q (f a)) : Ensures R Q (x >>= f) := by
  cases x with
  | error _ => exact hx
  | ok a => exact hf a rfl hx

/-- What every turn of a fallible loop ensures, the loop ensures. -/
theorem ensures_foldlM {ι : Type*} {f : α → ι → Except ε α} {items : List ι}
    (hstep : ∀ item ∈ items, ∀ a, P a → Ensures P Q (f a item)) {a : α} (ha : P a) :
    Ensures P Q (items.foldlM f a) := by
  induction items generalizing a with
  | nil => exact ha
  | cons item items ih =>
    rw [List.forall_mem_cons] at hstep
    rw [List.foldlM_cons]
    exact (hstep.1 a ha).bind fun a' _ ha' ↦ ih hstep.2 ha'

end Ensures

/-! ### Fuel -/

/-- A computation with fuel settles on a value: it returns it whenever the fuel is enough. -/
def Settles {ε α : Type*} (f : ℕ → Except ε α) (a : α) : Prop :=
  ∃ enough, ∀ fuel, enough ≤ fuel → f fuel = .ok a

/-- A sequence of two computations settles when the second does on what the first settles on. -/
theorem Settles.bind {f : ℕ → Except ε α} {g : ℕ → α → Except ε β} {a : α} {b : β}
    (h : Settles f a) (hrest : Settles (fun fuel ↦ g fuel a) b) :
    Settles (fun fuel ↦ f fuel >>= g fuel) b := by
  obtain ⟨enough, hf⟩ := h
  obtain ⟨more, hg⟩ := hrest
  refine ⟨max enough more, fun fuel hle ↦ except_bind_eq_ok.mpr ⟨a, ?_, ?_⟩⟩
  · exact hf fuel (Nat.le_trans (Nat.le_max_left _ _) hle)
  · exact hg fuel (Nat.le_trans (Nat.le_max_right _ _) hle)

/-- The error of a failed computation. -/
def toError {ε α : Type} : Except ε α → Option ε
  | .ok _ => none
  | .error e => some e

theorem eq_error_of_toError {ε α : Type} {x : Except ε α} {e : ε} (h : toError x = some e) :
    x = .error e := by
  cases x with
  | error e' => rw [Option.some.inj h]
  | ok _ => cases h

theorem eq_ok_of_toOption {ε α : Type} {x : Except ε α} {a : α} (h : x.toOption = some a) :
    x = .ok a := by
  cases x with
  | error _ => cases h
  | ok b => rw [Option.some.inj h]

end Propsim.Foundation
