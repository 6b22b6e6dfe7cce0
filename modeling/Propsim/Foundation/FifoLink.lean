import Mathlib.Data.List.Basic
import Mathlib.Data.Set.Basic
import Mathlib.Logic.Relation

/-!
# Links that keep the order

A one-way link between two parties hands over what was put on it from the front. It may put several
copies of an item on its way, and may drop what is on its way. Whatever it does, what it has handed
over is a sublist of the copies of what was put on it (`Link.Steps.sublist`), and a link that puts
one copy of everything on its way and drops nothing hands over a prefix (`Link.Steps.prefix_sent`).
-/

set_option autoImplicit false
set_option relaxedAutoImplicit false

namespace Propsim.Foundation

variable {μ : Type*}

/-- A one-way link: what was put on it, what is on its way, and what it has handed over. -/
structure Link (μ : Type*) where
  sent : List μ
  transit : List μ
  handed : List μ

namespace Link

/-- A link on which nothing was put. -/
def fresh : Link μ := ⟨[], [], []⟩

/-- What a link can do: put copies of an item on its way, hand over the first item on its way, or
drop it, if it is one that drops. -/
inductive Step (copies : Set ℕ) (drops : Prop) : Link μ → Link μ → Prop
  | put (l : Link μ) (item : μ) {n : ℕ} (hn : n ∈ copies) :
      Step copies drops l ⟨l.sent ++ [item], l.transit ++ List.replicate n item, l.handed⟩
  | hand {l : Link μ} {item : μ} {rest : List μ} (h : l.transit = item :: rest) :
      Step copies drops l ⟨l.sent, rest, l.handed ++ [item]⟩
  | drop {l : Link μ} {item : μ} {rest : List μ} (h : l.transit = item :: rest) (hdrops : drops) :
      Step copies drops l ⟨l.sent, rest, l.handed⟩

/-- Any number of steps. -/
def Steps (copies : Set ℕ) (drops : Prop) : Link μ → Link μ → Prop :=
  Relation.ReflTransGen (Step copies drops)

variable {copies : Set ℕ} {drops : Prop} {l l' : Link μ}

theorem Step.sublist {bound : ℕ} (hbound : ∀ n ∈ copies, n ≤ bound) (h : Step copies drops l l')
    (hl : (l.handed ++ l.transit).Sublist (l.sent.flatMap (List.replicate bound))) :
    (l'.handed ++ l'.transit).Sublist (l'.sent.flatMap (List.replicate bound)) := by
  cases h with
  | put item hn =>
    rw [← List.append_assoc, List.flatMap_append, List.flatMap_singleton]
    exact hl.append (List.replicate_sublist_replicate item |>.mpr (hbound _ hn))
  | hand htransit =>
    rw [List.append_assoc, List.singleton_append, ← htransit]
    exact hl
  | drop htransit =>
    rw [htransit] at hl
    exact ((List.sublist_cons_self _ _).append_left _).trans hl

/-- What a link hands over comes in the order in which it was put on it, each item as often as the
link copies it, at most. -/
theorem Steps.sublist {bound : ℕ} (hbound : ∀ n ∈ copies, n ≤ bound)
    (h : Steps copies drops fresh l) :
    l.handed.Sublist (l.sent.flatMap (List.replicate bound)) := by
  have hall : (l.handed ++ l.transit).Sublist (l.sent.flatMap (List.replicate bound)) := by
    induction h with
    | refl => exact List.Sublist.refl _
    | tail _ hlast ih => exact hlast.sublist hbound ih
  exact (List.sublist_append_left _ _).trans hall

/-- A link that neither copies nor drops hands over a prefix of what was put on it. -/
theorem Steps.prefix_sent (h : Steps {1} False fresh l) : l.handed <+: l.sent := by
  have hall : l.handed ++ l.transit = l.sent := by
    induction h with
    | refl => rfl
    | tail _ hlast ih =>
      cases hlast with
      | put item hn =>
        obtain rfl : _ = 1 := hn
        rw [← List.append_assoc, ih]
        rfl
      | hand htransit =>
        rw [List.append_assoc, List.singleton_append, ← htransit]
        exact ih
      | drop _ hdrops => exact hdrops.elim
  exact ⟨l.transit, hall⟩

end Link

end Propsim.Foundation
