import Propsim.Foundation.SequentialSpec
import Mathlib.Order.Basic
import Mathlib.Order.Lattice

/-!
# Linearization points

An order of operations can be given by moments at which they take effect. When every operation takes
effect at a moment of its own and nothing happens between these moments, the operations are
serializable in the order of their moments (`TakesEffect.serializable`). For operations that are
intervals of a dense order the converse holds too: an order that never puts an interval after one
that begins later than it ends can be given by points inside the intervals
(`serializable_iff_exists_points`).
-/

set_option autoImplicit false
set_option relaxedAutoImplicit false

namespace Propsim.Foundation

variable {ι σ : Type*}

/-! ### Effects in discrete time -/

/-- Every operation takes effect at a point of its own, and between the points the state rests. -/
structure TakesEffect (operations : Set ι) (step : σ → ι → σ) (answers : σ → ι → Prop) (init : σ)
    (point : ι → ℕ) (states : ℕ → σ) : Prop where
  starts : states 0 = init
  apart : Set.InjOn point operations
  answers : ∀ i ∈ operations, answers (states (point i)) i
  acts : ∀ i ∈ operations, states (point i + 1) = step (states (point i)) i
  rests : ∀ k, (∀ i ∈ operations, point i ≠ k) → states (k + 1) = states k

namespace TakesEffect

variable {operations : Set ι} {step : σ → ι → σ} {answers : σ → ι → Prop} {init : σ}
  {point : ι → ℕ} {states : ℕ → σ}

/-- The operations that took effect before a moment are legal in the order of their points, and lead
to the state at that moment. The induction is on the moment. -/
theorem exists_order (h : TakesEffect operations step answers init point states) (k : ℕ) :
    ∃ order, Enumerates {i | i ∈ operations ∧ point i < k} order ∧
      (order.Pairwise fun i j ↦ point i < point j) ∧ Legal step answers init order ∧
      order.foldl step init = states k := by
  induction k with
  | zero => exact ⟨[], ⟨List.nodup_nil, by simp⟩, List.Pairwise.nil, trivial, h.starts.symm⟩
  | succ k ih =>
    obtain ⟨order, ⟨hnodup, hmem⟩, hsorted, hlegal, hstate⟩ := ih
    by_cases hpoint : ∃ i ∈ operations, point i = k
    · obtain ⟨i, hi, rfl⟩ := hpoint
      have hbefore (j : ι) (hj : j ∈ order) : point j < point i := ((hmem j).mp hj).2
      have hfresh : i ∉ order := fun hin ↦ lt_irrefl _ (hbefore i hin)
      refine ⟨order ++ [i], ⟨?_, fun j ↦ ?_⟩, ?_, ?_, ?_⟩
      · exact List.nodup_append.mpr ⟨hnodup, List.nodup_singleton i, fun j hj j' hj' ↦
          fun heq ↦ hfresh (List.mem_singleton.mp hj' ▸ heq ▸ hj)⟩
      · rw [List.mem_append, List.mem_singleton, hmem]
        constructor
        · rintro (⟨hj, hlt⟩ | rfl)
          · exact ⟨hj, Nat.lt_succ_of_lt hlt⟩
          · exact ⟨hi, Nat.lt_succ_self _⟩
        · rintro ⟨hj, hlt⟩
          rcases Nat.lt_succ_iff_lt_or_eq.mp hlt with hlt | heq
          · exact .inl ⟨hj, hlt⟩
          · exact .inr (h.apart hj hi heq)
      · exact List.pairwise_append.mpr ⟨hsorted, List.pairwise_singleton _ _, fun j hj j' hj' ↦
          List.mem_singleton.mp hj' ▸ hbefore j hj⟩
      · rw [legal_append, hstate]
        exact ⟨hlegal, h.answers i hi, trivial⟩
      · rw [List.foldl_append, hstate]
        exact (h.acts i hi).symm
    · have hnone (i : ι) (hi : i ∈ operations) : point i ≠ k := fun heq ↦ hpoint ⟨i, hi, heq⟩
      refine ⟨order, ⟨hnodup, fun i ↦ ?_⟩, hsorted, hlegal, hstate.trans (h.rests k hnone).symm⟩
      rw [hmem]
      refine and_congr_right fun hi ↦ ?_
      rw [Nat.lt_succ_iff_lt_or_eq]
      exact (or_iff_left (hnone i hi)).symm

/-- Operations that take effect at points of their own are serializable for every precedence that
the points respect. -/
theorem serializable (h : TakesEffect operations step answers init point states)
    {before : ι → ι → Prop} {n : ℕ} (hbounded : ∀ i ∈ operations, point i < n)
    (hbefore : ∀ i ∈ operations, ∀ j ∈ operations, before i j → point i < point j) :
    Serializable operations before step answers init := by
  obtain ⟨order, ⟨hnodup, hmem⟩, hsorted, hlegal, -⟩ := h.exists_order n
  have hin (i : ι) : i ∈ order ↔ i ∈ operations :=
    (hmem i).trans (and_iff_left_of_imp (hbounded i))
  refine ⟨order, ⟨hnodup, hin⟩, ?_, hlegal⟩
  refine hsorted.imp_of_mem fun {i j} hi hj hlt hwrong ↦ ?_
  exact lt_asymm hlt (hbefore j ((hin j).mp hj) i ((hin i).mp hi) hwrong)

end TakesEffect

/-! ### Points inside intervals -/

section Intervals

variable {α : Type*} [LinearOrder α] [DenselyOrdered α] {opens closes : ι → α}

/-- There is a point above a bound and below finitely many that lie above it. -/
theorem exists_between_forall {a : α} {i : ι} {rest : List ι}
    (h : ∀ j ∈ i :: rest, a < closes j) : ∃ p, a < p ∧ ∀ j ∈ i :: rest, p < closes j := by
  induction rest with
  | nil =>
    obtain ⟨p, hp, hlt⟩ := exists_between (h i List.mem_cons_self)
    exact ⟨p, hp, List.forall_mem_singleton.mpr hlt⟩
  | cons j rest ih =>
    simp only [List.forall_mem_cons] at h ih ⊢
    obtain ⟨q, hq, hi, hrest⟩ := ih ⟨h.1, h.2.2⟩
    obtain ⟨p, hp, hlt⟩ := exists_between (lt_min hq h.2.1)
    have hpq := hlt.trans_le (min_le_left _ _)
    exact ⟨p, hp, hpq.trans hi, hlt.trans_le (min_le_right _ _),
      fun j hj ↦ hpq.trans (hrest j hj)⟩

/-- An order of intervals is the order of points inside them, above a bound, when no interval begins
after the end of a later one. The induction is on the order: the next point lies below the ends of
all intervals that are left. -/
theorem exists_points {order : List ι} (hnodup : order.Nodup)
    (hopens : ∀ i ∈ order, opens i < closes i)
    (hrespects : order.Pairwise fun i j ↦ opens i < closes j) {a : α}
    (ha : ∀ i ∈ order, a < closes i) :
    ∃ point : ι → α, (∀ i ∈ order, a < point i ∧ opens i < point i ∧ point i < closes i) ∧
      order.Pairwise fun i j ↦ point i < point j := by
  classical
  induction order generalizing a with
  | nil => exact ⟨fun _ ↦ a, List.forall_mem_nil _, List.Pairwise.nil⟩
  | cons i rest ih =>
    obtain ⟨hfresh, hnodup⟩ := List.nodup_cons.mp hnodup
    obtain ⟨hi, hrespects⟩ := List.pairwise_cons.mp hrespects
    have habove (j : ι) (hj : j ∈ i :: rest) : max a (opens i) < closes j := by
      refine max_lt (ha j hj) ?_
      rcases List.mem_cons.mp hj with rfl | hj
      · exact hopens j List.mem_cons_self
      · exact hi j hj
    obtain ⟨p, hp, hbelow⟩ := exists_between_forall habove
    obtain ⟨point, hinside, hsorted⟩ := ih hnodup
      (fun j hj ↦ hopens j (List.mem_cons_of_mem _ hj)) hrespects
      fun j hj ↦ hbelow j (List.mem_cons_of_mem _ hj)
    have hold {j : ι} (hj : j ∈ rest) : Function.update point i p j = point j :=
      Function.update_of_ne (ne_of_mem_of_not_mem hj hfresh) _ _
    have hap := (le_max_left _ _).trans_lt hp
    refine ⟨Function.update point i p, List.forall_mem_cons.mpr ⟨?_, fun j hj ↦ ?_⟩,
      List.pairwise_cons.mpr ⟨fun j hj ↦ ?_, ?_⟩⟩
    · rw [Function.update_self]
      exact ⟨hap, (le_max_right _ _).trans_lt hp, hbelow i List.mem_cons_self⟩
    · rw [hold hj]
      obtain ⟨hpoint, hinside⟩ := hinside j hj
      exact ⟨hap.trans hpoint, hinside⟩
    · rw [Function.update_self, hold hj]
      exact (hinside j hj).1
    · refine hsorted.imp_of_mem fun {j j'} hj hj' hlt ↦ ?_
      rwa [hold hj, hold hj']

/-- Intervals are serializable for the precedence of time exactly when each can take effect at a
point inside it. Assumes: every interval begins before it ends, and none begins at the end of
another. -/
theorem serializable_iff_exists_points {operations : Set ι}
    (hopens : ∀ i ∈ operations, opens i < closes i)
    (hapart : ∀ i ∈ operations, ∀ j ∈ operations, opens i ≠ closes j) (step : σ → ι → σ)
    (answers : σ → ι → Prop) (init : σ) :
    Serializable operations (fun i j ↦ closes i < opens j) step answers init ↔
      ∃ point : ι → α, (∀ i ∈ operations, opens i < point i ∧ point i < closes i) ∧
        ∃ order, Enumerates operations order ∧ (order.Pairwise fun i j ↦ point i < point j) ∧
          Legal step answers init order := by
  constructor
  · rintro ⟨order, ⟨hnodup, hmem⟩, hrespects, hlegal⟩
    have hopens' (i : ι) (hi : i ∈ order) : opens i < closes i := hopens i ((hmem i).mp hi)
    have hbegins : order.Pairwise fun i j ↦ opens i < closes j :=
      hrespects.imp_of_mem fun {i j} hi hj hnot ↦ lt_of_le_of_ne (not_lt.mp hnot)
        (hapart i ((hmem i).mp hi) j ((hmem j).mp hj))
    obtain ⟨point, hinside, hsorted⟩ : ∃ point : ι → α,
        (∀ i ∈ order, opens i < point i ∧ point i < closes i) ∧
          order.Pairwise fun i j ↦ point i < point j := by
      cases order with
      | nil => exact ⟨opens, List.forall_mem_nil _, List.Pairwise.nil⟩
      | cons i rest =>
        obtain ⟨point, hinside, hsorted⟩ := exists_points (a := opens i) hnodup hopens' hbegins
          (List.forall_mem_cons.mpr
            ⟨hopens' i List.mem_cons_self, (List.pairwise_cons.mp hbegins).1⟩)
        exact ⟨point, fun j hj ↦ (hinside j hj).2, hsorted⟩
    exact ⟨point, fun i hi ↦ hinside i ((hmem i).mpr hi), order, ⟨hnodup, hmem⟩, hsorted, hlegal⟩
  · rintro ⟨point, hinside, order, ⟨hnodup, hmem⟩, hsorted, hlegal⟩
    refine ⟨order, ⟨hnodup, hmem⟩, ?_, hlegal⟩
    refine hsorted.imp_of_mem fun {i j} hi hj hlt hwrong ↦ ?_
    have hj' := (hinside j ((hmem j).mp hj)).2
    have hi' := (hinside i ((hmem i).mp hi)).1
    exact lt_asymm hlt ((hj'.trans hwrong).trans hi')

end Intervals

end Propsim.Foundation
