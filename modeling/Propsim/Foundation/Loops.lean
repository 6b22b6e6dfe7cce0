import Mathlib.Data.Nat.Basic
import Mathlib.Order.Basic

/-!
# Loops that advance

A loop is given by one of its turns, which goes round again in a new state or returns. Run with a
bound on its turns, it may have no result. A loop whose every turn makes its state smaller or
returns has one with more turns than the size of its first state (`runLoop_eq_some`), and what it
returns is returned by a turn in a state that is no larger (`exists_of_runLoop`). A loop that reads
a list has a cursor for its size (`TurnsMove`).
-/

set_option autoImplicit false
set_option relaxedAutoImplicit false

namespace Propsim.Foundation

/-- What a turn of a loop does. -/
inductive Turn (σ ρ : Type*)
  | again (state : σ)
  | done (result : ρ)

variable {σ ρ : Type*}

/-- A loop with a bound on its turns. A turn may contain other loops, and it has no result when one
of these has none. -/
def runLoop (turn : σ → Option (Turn σ ρ)) : ℕ → σ → Option ρ
  | 0, _ => none
  | turns + 1, state =>
    match turn state with
    | none => none
    | some (.again next) => runLoop turn turns next
    | some (.done result) => some result

/-- Every turn makes the state smaller or returns. -/
def Advances (size : σ → ℕ) (turn : σ → Option (Turn σ ρ)) : Prop :=
  ∀ state next, turn state = some (.again next) → size next < size state

variable {size : σ → ℕ} {turn : σ → Option (Turn σ ρ)}

/-- What a loop returns is returned by one of its turns, in a state that is no larger than the
first. -/
theorem exists_of_runLoop (hadvances : Advances size turn) {turns : ℕ} {state : σ} {result : ρ}
    (h : runLoop turn turns state = some result) :
    ∃ last, size last ≤ size state ∧ turn last = some (.done result) := by
  induction turns generalizing state with
  | zero => cases h
  | succ turns ih =>
    rw [runLoop] at h
    split at h
    · cases h
    · rename_i next hnext
      obtain ⟨last, hle, hlast⟩ := ih h
      exact ⟨last, hle.trans (hadvances state next hnext).le, hlast⟩
    · rename_i result' hdone
      obtain rfl := Option.some.inj h
      exact ⟨state, le_rfl, hdone⟩

/-- A turn unfolds a function of the state: the turn returns the value of the state, or it goes on
to a state of the same value. -/
def Unfolds (value : σ → ρ) (turn : σ → Option (Turn σ ρ)) (state : σ) : Prop :=
  (∃ next, turn state = some (.again next) ∧ value state = value next) ∨
    turn state = some (.done (value state))

/-- A loop that advances returns the value of its first state. Assumes: the turns unfold the
function in states up to a size. -/
theorem runLoop_eq_some {value : σ → ρ} (hadvances : Advances size turn) {bound : ℕ}
    (hunfolds : ∀ state, size state ≤ bound → Unfolds value turn state) {turns : ℕ} {state : σ}
    (hbound : size state ≤ bound) (hturns : size state < turns) :
    runLoop turn turns state = some (value state) := by
  induction turns generalizing state with
  | zero => exact absurd hturns (Nat.not_lt_zero _)
  | succ turns ih =>
    rw [runLoop]
    rcases hunfolds state hbound with ⟨next, hnext, hvalue⟩ | hdone
    · have hlt := hadvances state next hnext
      rw [hnext, hvalue]
      exact ih (hlt.le.trans hbound) (by omega)
    · rw [hdone]

section Readers

variable {γ α β ε : Type*}

/-- A reader of a list takes at least one item for what it reads. -/
def Consumes (read : List γ → Option (Except ε (β × List γ))) : Prop :=
  ∀ items b rest, read items = some (.ok (b, rest)) → rest.length < items.length

/-- A turn at a cursor moves it: fewer items are left where it goes round again and where it returns
something. -/
def Moves (items : List γ) : Turn (List γ × α) (Except ε (β × List γ)) → Prop
  | .again (rest, _) => rest.length < items.length
  | .done (.ok (_, rest)) => rest.length < items.length
  | .done (.error _) => True

theorem Moves.mono {items items' : List γ} {t : Turn (List γ × α) (Except ε (β × List γ))}
    (h : Moves items t) (hle : items.length ≤ items'.length) : Moves items' t := by
  match t with
  | .again _ => exact Nat.lt_of_lt_of_le h hle
  | .done (.ok _) => exact Nat.lt_of_lt_of_le h hle
  | .done (.error _) => trivial

/-- Every turn of a loop moves the cursor. -/
def TurnsMove (turn : List γ × α → Option (Turn (List γ × α) (Except ε (β × List γ)))) : Prop :=
  ∀ items held t, turn (items, held) = some t → Moves items t

variable {turn : List γ × α → Option (Turn (List γ × α) (Except ε (β × List γ)))}

theorem TurnsMove.advances (h : TurnsMove turn) : Advances (fun state ↦ state.1.length) turn :=
  fun state next hnext ↦ h state.1 state.2 (.again next) hnext

/-- What a loop returns takes at least one item. -/
theorem TurnsMove.length_lt (h : TurnsMove turn) {turns : ℕ} {items rest : List γ} {held : α}
    {b : β} (hloop : runLoop turn turns (items, held) = some (.ok (b, rest))) :
    rest.length < items.length := by
  obtain ⟨⟨last, held'⟩, hle, hlast⟩ := exists_of_runLoop h.advances hloop
  have hmoves : rest.length < last.length := h last held' (.done (.ok (b, rest))) hlast
  exact hmoves.trans_le hle

end Readers

end Propsim.Foundation
