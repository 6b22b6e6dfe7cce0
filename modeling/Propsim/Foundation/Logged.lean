import Propsim.Foundation.Fallible

/-!
# Computations with a log

A fallible computation together with the list of what it logged, whether it succeeds or fails. A
program that is written once with the calls of interest logged and once without them is the same
program when the results agree, which the `result` lemmas reduce to its parts; what every entry of
the log satisfies is shown along the program by the rules of `Always`.
-/

set_option autoImplicit false
set_option relaxedAutoImplicit false

namespace Propsim.Foundation

universe u

/-- A fallible computation with its log, the oldest entry first. -/
structure Logged (ω ε : Type*) (α : Type u) where
  result : Except ε α
  log : List ω

namespace Logged

variable {ω ε : Type*} {α β : Type u}

/-- The log of a sequence is the first log, followed by the second if the first part succeeds. -/
instance : Monad (Logged ω ε) where
  pure a := ⟨.ok a, []⟩
  bind x f :=
    match x.result with
    | .error e => ⟨.error e, x.log⟩
    | .ok a => ⟨(f a).result, x.log ++ (f a).log⟩

/-- A computation that logs nothing. -/
instance : MonadLift (Except ε) (Logged ω ε) := ⟨fun x ↦ ⟨x, []⟩⟩

/-! ### Results -/

@[simp] theorem result_pure (a : α) : (pure a : Logged ω ε α).result = .ok a := rfl

@[simp] theorem result_lift (x : Except ε α) :
    (liftM x : Logged ω ε α).result = x := rfl

@[simp] theorem result_bind (x : Logged ω ε α) (f : α → Logged ω ε β) :
    (x >>= f).result = x.result >>= fun a ↦ (f a).result := by
  obtain ⟨_ | _, _⟩ := x <;> rfl

theorem result_bind_of_ok {x : Logged ω ε α} {a : α} (h : x.result = .ok a)
    (f : α → Logged ω ε β) : (x >>= f).result = (f a).result := by
  rw [result_bind, h]
  rfl

/-! ### Logs -/

@[simp] theorem log_pure (a : α) : (pure a : Logged ω ε α).log = [] := rfl

@[simp] theorem log_lift (x : Except ε α) : (liftM x : Logged ω ε α).log = [] := rfl

theorem log_bind_of_ok {x : Logged ω ε α} {a : α} (h : x.result = .ok a)
    (f : α → Logged ω ε β) : (x >>= f).log = x.log ++ (f a).log := by
  obtain ⟨_, _⟩ := x
  obtain rfl := h
  rfl

theorem log_bind_of_error {x : Logged ω ε α} {e : ε} (h : x.result = .error e)
    (f : α → Logged ω ε β) : (x >>= f).log = x.log := by
  obtain ⟨_, _⟩ := x
  obtain rfl := h
  rfl

/-- A sequence logs what its first part logs, and what the second part logs on the result of the
first. -/
theorem mem_log_bind {x : Logged ω ε α} {f : α → Logged ω ε β} {w : ω} :
    w ∈ (x >>= f).log ↔ w ∈ x.log ∨ ∃ a, x.result = .ok a ∧ w ∈ (f a).log := by
  cases hx : x.result with
  | error e => simp [log_bind_of_error hx]
  | ok a => simp [log_bind_of_ok hx]

theorem bind_assoc {γ : Type u} (x : Logged ω ε α) (f : α → Logged ω ε β)
    (g : β → Logged ω ε γ) : x >>= f >>= g = x >>= fun a ↦ f a >>= g := by
  obtain ⟨result, log⟩ := x
  cases result with
  | error e => rfl
  | ok a =>
    change (⟨(f a).result, log ++ (f a).log⟩ : Logged ω ε β) >>= g =
      ⟨(f a >>= g).result, log ++ (f a >>= g).log⟩
    cases hf : (f a).result with
    | error e => simp [bind, hf]
    | ok b => simp [bind, hf, List.append_assoc]

instance : LawfulMonad (Logged ω ε) :=
  LawfulMonad.mk' (Logged ω ε) (fun x ↦ by obtain ⟨_ | _, _⟩ := x <;> simp [Functor.map])
    (fun _ _ ↦ rfl) bind_assoc

/-! ### Lists -/

/-- A computation that succeeds on every item of a list collects the results and the logs. -/
theorem mapM_eq {ι : Type*} {f : ι → Logged ω ε α} {g : ι → α} {entry : ι → ω}
    (h : ∀ i, f i = ⟨.ok (g i), [entry i]⟩) (items : List ι) :
    items.mapM f = ⟨.ok (items.map g), items.map entry⟩ := by
  induction items with
  | nil => rfl
  | cons i items ih =>
    rw [List.mapM_cons, h i, ih]
    simp [bind, pure]

/-- A test that succeeds on every item of a list finds whether it holds of one of them. -/
theorem result_anyM {ι : Type*} {f : ι → Logged ω ε Bool} {p : ι → Bool}
    (h : ∀ i, (f i).result = .ok (p i)) (items : List ι) :
    (items.anyM f).result = .ok (items.any p) := by
  induction items with
  | nil => rfl
  | cons i items ih =>
    rw [List.anyM, result_bind, h i, List.any_cons]
    cases p i with
    | true => rfl
    | false => exact ih

/-! ### What every entry of a log satisfies -/

/-- Every entry of the log satisfies a predicate. -/
def Always (P : ω → Prop) (x : Logged ω ε α) : Prop := ∀ w ∈ x.log, P w

section Always

variable {P : ω → Prop}

theorem always_pure (a : α) : Always P (pure a : Logged ω ε α) := by
  rintro w ⟨⟩

theorem always_lift (x : Except ε α) : Always P (liftM x : Logged ω ε α) := by
  rintro w ⟨⟩

theorem Always.bind {x : Logged ω ε α} {f : α → Logged ω ε β} (hx : Always P x)
    (hf : ∀ a, x.result = .ok a → Always P (f a)) : Always P (x >>= f) := by
  intro w hw
  rcases mem_log_bind.mp hw with hw | ⟨a, ha, hw⟩
  · exact hx w hw
  · exact hf a ha w hw

theorem always_anyM {ι : Type*} {f : ι → Logged ω ε Bool} {items : List ι}
    (h : ∀ i ∈ items, Always P (f i)) : Always P (items.anyM f) := by
  induction items with
  | nil => exact always_pure _
  | cons i items ih =>
    rw [List.forall_mem_cons] at h
    rw [List.anyM]
    refine h.1.bind fun found _ ↦ ?_
    cases found with
    | true => exact always_pure _
    | false => exact ih h.2

end Always

end Logged

end Propsim.Foundation
