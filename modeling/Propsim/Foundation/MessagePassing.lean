import Mathlib.Data.Set.Basic
import Mathlib.Logic.Function.Basic
import Mathlib.Logic.Relation

/-!
# Asynchronous message passing

Parties that share nothing but a pool of what they have put out. A party moves on its own, or takes
up something in the pool that is addressed to it, and each move may put out more. Nothing is removed
from the pool: what was put out may be taken up at any time, in any order, any number of times or
never, so the network may delay, reorder, duplicate and lose. What holds of every party and of all
that is put out, and is kept by every move, holds in every configuration that can be reached
(`Protocol.Keeps.reachable`).
-/

set_option autoImplicit false
set_option relaxedAutoImplicit false

namespace Propsim.Foundation

variable {ι σ μ : Type*}

/-- What the parties of a protocol can do: a move leads from a state to a state and puts out
addressed items. -/
structure Protocol (ι σ μ : Type*) where
  init : σ
  /-- A move of a party on its own. -/
  acts : ι → σ → σ → List (ι × μ) → Prop
  /-- A move of a party on an item that is addressed to it. -/
  takes : ι → μ → σ → σ → List (ι × μ) → Prop

/-- The states of the parties, and all that was put out so far. -/
structure Configuration (ι σ μ : Type*) where
  states : ι → σ
  pool : Set (ι × μ)

/-- A party moves to a state and puts out items. -/
def Configuration.move [DecidableEq ι] (c : Configuration ι σ μ) (i : ι) (state : σ)
    (out : List (ι × μ)) : Configuration ι σ μ :=
  ⟨Function.update c.states i state, c.pool ∪ {item | item ∈ out}⟩

theorem Configuration.mem_pool_move [DecidableEq ι] {c : Configuration ι σ μ} {i : ι} {state : σ}
    {out : List (ι × μ)} {item : ι × μ} :
    item ∈ (c.move i state out).pool ↔ item ∈ c.pool ∨ item ∈ out := Iff.rfl

theorem Configuration.states_move_self [DecidableEq ι] (c : Configuration ι σ μ) (i : ι)
    (state : σ) (out : List (ι × μ)) : (c.move i state out).states i = state :=
  Function.update_self _ _ _

theorem Configuration.states_move_of_ne [DecidableEq ι] (c : Configuration ι σ μ) {i j : ι}
    (h : j ≠ i) (state : σ) (out : List (ι × μ)) : (c.move i state out).states j = c.states j :=
  Function.update_of_ne h _ _

namespace Protocol

/-- No party has moved. -/
def initial (P : Protocol ι σ μ) : Configuration ι σ μ := ⟨fun _ ↦ P.init, ∅⟩

variable [DecidableEq ι]

/-- One party moves. -/
inductive Step (P : Protocol ι σ μ) : Configuration ι σ μ → Configuration ι σ μ → Prop
  | act {c : Configuration ι σ μ} {i : ι} {state : σ} {out : List (ι × μ)}
      (h : P.acts i (c.states i) state out) : P.Step c (c.move i state out)
  | take {c : Configuration ι σ μ} {i : ι} {item : μ} {state : σ} {out : List (ι × μ)}
      (hpool : (i, item) ∈ c.pool) (h : P.takes i item (c.states i) state out) :
      P.Step c (c.move i state out)

/-- Any number of moves. -/
def Steps (P : Protocol ι σ μ) : Configuration ι σ μ → Configuration ι σ μ → Prop :=
  Relation.ReflTransGen P.Step

/-- A configuration that the parties can get into. -/
def Reachable (P : Protocol ι σ μ) (c : Configuration ι σ μ) : Prop := P.Steps P.initial c

variable {P : Protocol ι σ μ}

theorem Reachable.steps {c c' : Configuration ι σ μ} (h : P.Reachable c) (h' : P.Steps c c') :
    P.Reachable c' := Relation.ReflTransGen.trans h h'

/-- What every move keeps holds in every configuration that can be reached. -/
theorem Reachable.invariant {I : Configuration ι σ μ → Prop} (hinitial : I P.initial)
    (hstep : ∀ c c', I c → P.Step c c' → I c') {c : Configuration ι σ μ} (h : P.Reachable c) :
    I c := by
  induction h with
  | refl => exact hinitial
  | tail _ hlast ih => exact hstep _ _ ih hlast

/-- A property of the states of each party and one of the items put out, which every move of one
party keeps. -/
structure Keeps (P : Protocol ι σ μ) (good : ι → σ → Prop) (sound : ι × μ → Prop) : Prop where
  init : ∀ i, good i P.init
  act : ∀ i state state' out, good i state → P.acts i state state' out →
    good i state' ∧ ∀ item ∈ out, sound item
  take : ∀ i item state state' out, good i state → sound (i, item) →
    P.takes i item state state' out → good i state' ∧ ∀ item ∈ out, sound item

/-- What each move of one party keeps holds of all parties and of the whole pool. -/
theorem Keeps.reachable {good : ι → σ → Prop} {sound : ι × μ → Prop} (h : P.Keeps good sound)
    {c : Configuration ι σ μ} (hc : P.Reachable c) :
    (∀ i, good i (c.states i)) ∧ ∀ item ∈ c.pool, sound item := by
  refine hc.invariant (I := fun c ↦ (∀ i, good i (c.states i)) ∧ ∀ item ∈ c.pool, sound item)
    ⟨h.init, fun item hitem ↦ hitem.elim⟩ fun c c' hc hstep ↦ ?_
  have hmoved {i : ι} {state : σ} {out : List (ι × μ)} (hmove : good i state ∧ ∀ item ∈ out,
      sound item) : (∀ j, good j ((c.move i state out).states j)) ∧
        ∀ item ∈ (c.move i state out).pool, sound item := by
    refine ⟨(Function.forall_update_iff c.states good).mpr ⟨hmove.1, fun j _ ↦ hc.1 j⟩, ?_⟩
    exact fun item hitem ↦ (Configuration.mem_pool_move.mp hitem).elim (hc.2 item) (hmove.2 item)
  cases hstep with
  | act hact => exact hmoved (h.act _ _ _ _ (hc.1 _) hact)
  | take hpool htake => exact hmoved (h.take _ _ _ _ _ (hc.1 _) (hc.2 _ hpool) htake)

end Protocol

end Propsim.Foundation
