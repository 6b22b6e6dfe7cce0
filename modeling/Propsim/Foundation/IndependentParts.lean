import Propsim.Foundation.LinearizationPoints
import Mathlib.Data.List.Sort
import Mathlib.Data.Set.Finite.Basic

/-!
# Objects made of independent parts

An object is made of parts when every operation reads and changes one part only. An order of its
operations is legal exactly when, for each part, the operations on it are legal in that order
(`Composed.legal_iff`). Operations that are intervals of time are then serializable exactly when
those of each part are (`Composed.serializable_iff`): the parts can be checked one by one, although
the orders found for them are not given together. The moments at which the operations take effect
give the common order.
-/

set_option autoImplicit false
set_option relaxedAutoImplicit false

namespace Propsim.Foundation

variable {ι κ σ τ : Type*}

/-- An object is made of parts: an operation is answered by the part with its key, and changes that
part only. -/
structure Composed (step : σ → ι → σ) (answers : σ → ι → Prop) (key : ι → κ) (part : σ → κ → τ)
    (stepPart : τ → ι → τ) (answersPart : τ → ι → Prop) : Prop where
  own : ∀ state i, part (step state i) (key i) = stepPart (part state (key i)) i
  others : ∀ state i k, k ≠ key i → part (step state i) k = part state k
  answers_iff : ∀ state i, answers state i ↔ answersPart (part state (key i)) i

/-- A sorting of finitely many elements by a value. -/
theorem exists_sorted {α : Type*} [LinearOrder α] {operations : Set ι} (hfinite : operations.Finite)
    (value : ι → α) :
    ∃ order, Enumerates operations order ∧ order.Pairwise fun i j ↦ value i ≤ value j := by
  classical
  refine ⟨hfinite.toFinset.toList.insertionSort fun i j ↦ value i ≤ value j, ⟨?_, fun i ↦ ?_⟩, ?_⟩
  · exact (List.perm_insertionSort _ _).nodup_iff.mpr (Finset.nodup_toList _)
  · rw [List.mem_insertionSort, Finset.mem_toList, Set.Finite.mem_toFinset]
  · have htotal : Std.Total fun i j : ι ↦ value i ≤ value j := ⟨fun i j ↦ le_total _ _⟩
    have htrans : IsTrans ι fun i j ↦ value i ≤ value j := ⟨fun _ _ _ ↦ le_trans⟩
    exact List.pairwise_insertionSort _ _

namespace Composed

variable [DecidableEq κ] {step : σ → ι → σ} {answers : σ → ι → Prop} {key : ι → κ}
  {part : σ → κ → τ} {stepPart : τ → ι → τ} {answersPart : τ → ι → Prop}

/-- An order is legal exactly when it is legal on each part. The induction is on the order: its
first operation concerns the part with its key, and no other. -/
theorem legal_iff (h : Composed step answers key part stepPart answersPart) (order : List ι)
    (state : σ) :
    Legal step answers state order ↔
      ∀ k, Legal stepPart answersPart (part state k) (order.filter fun i ↦ key i = k) := by
  induction order generalizing state with
  | nil => simp
  | cons i rest ih =>
    rw [legal_cons, ih]
    constructor
    · rintro ⟨hanswers, hrest⟩ k
      by_cases hk : key i = k
      · subst hk
        rw [List.filter_cons_of_pos (by simp), legal_cons, ← h.answers_iff, ← h.own]
        exact ⟨hanswers, hrest (key i)⟩
      · rw [List.filter_cons_of_neg (by simpa using hk), ← h.others state i k (Ne.symm hk)]
        exact hrest k
    · intro hall
      have hown := hall (key i)
      rw [List.filter_cons_of_pos (by simp), legal_cons, ← h.answers_iff, ← h.own] at hown
      refine ⟨hown.1, fun k ↦ ?_⟩
      by_cases hk : key i = k
      · subst hk
        exact hown.2
      · have hother := hall k
        rwa [List.filter_cons_of_neg (by simpa using hk), ← h.others state i k (Ne.symm hk)]
          at hother

/-- The operations on a part are serializable when all operations are. -/
theorem serializable_part (h : Composed step answers key part stepPart answersPart)
    {operations : Set ι} {before : ι → ι → Prop} {init : σ}
    (hall : Serializable operations before step answers init) (k : κ) :
    Serializable {i | i ∈ operations ∧ key i = k} before stepPart answersPart (part init k) := by
  obtain ⟨order, ⟨hnodup, hmem⟩, hrespects, hlegal⟩ := hall
  refine ⟨order.filter fun i ↦ key i = k, ⟨hnodup.filter _, fun i ↦ ?_⟩,
    hrespects.sublist List.filter_sublist, (h.legal_iff order init).mp hlegal k⟩
  rw [List.mem_filter, hmem, decide_eq_true_eq]
  exact Iff.rfl

/-- Finitely many intervals are serializable for the precedence of time exactly when, for each part,
those on it are. Assumes: every interval begins before it ends, and none begins at the end of
another. -/
theorem serializable_iff (h : Composed step answers key part stepPart answersPart) {α : Type*}
    [LinearOrder α] [DenselyOrdered α] {opens closes : ι → α} {operations : Set ι}
    (hfinite : operations.Finite) (hopens : ∀ i ∈ operations, opens i < closes i)
    (hapart : ∀ i ∈ operations, ∀ j ∈ operations, opens i ≠ closes j) (init : σ) :
    Serializable operations (fun i j ↦ closes i < opens j) step answers init ↔
      ∀ k, Serializable {i | i ∈ operations ∧ key i = k} (fun i j ↦ closes i < opens j) stepPart
        answersPart (part init k) := by
  refine ⟨h.serializable_part, fun hparts ↦ ?_⟩
  -- The operations on each part take effect at points inside their intervals.
  have hpoints (k : κ) := (serializable_iff_exists_points (fun i hi ↦ hopens i hi.1)
    (fun i hi j hj ↦ hapart i hi.1 j hj.1) stepPart answersPart (part init k)).mp (hparts k)
  choose point hinside partial' henum hsorted hlegal using hpoints
  obtain ⟨order, ⟨hnodup, hmem⟩, horder⟩ := exists_sorted hfinite fun i ↦ point (key i) i
  refine ⟨order, ⟨hnodup, hmem⟩, ?_, (h.legal_iff order init).mpr fun k ↦ ?_⟩
  · refine horder.imp_of_mem fun {i j} hi hj hle hwrong ↦ ?_
    have hi' := (hinside (key i) i ⟨(hmem i).mp hi, rfl⟩).1
    have hj' := (hinside (key j) j ⟨(hmem j).mp hj, rfl⟩).2
    exact absurd hle (not_le.mpr ((hj'.trans hwrong).trans hi'))
  · -- The operations on a part stand in the order of their points there too.
    have hfilter : (order.filter fun i ↦ key i = k).Pairwise
        fun i j ↦ point k i ≤ point k j := by
      refine (horder.sublist List.filter_sublist).imp_of_mem fun {i j} hi hj hle ↦ ?_
      have hki : key i = k := by simpa using (List.mem_filter.mp hi).2
      have hkj : key j = k := by simpa using (List.mem_filter.mp hj).2
      rwa [hki, hkj] at hle
    have hperm : (order.filter fun i ↦ key i = k).Perm (partial' k) := by
      refine (List.perm_ext_iff_of_nodup (hnodup.filter _) (henum k).1).mpr fun i ↦ ?_
      rw [List.mem_filter, hmem, (henum k).2, decide_eq_true_eq]
      exact Iff.rfl
    have hdistinct : ((partial' k).map (point k)).Nodup :=
      List.pairwise_map.mpr ((hsorted k).imp ne_of_lt)
    have hsame : (order.filter fun i ↦ key i = k) = partial' k :=
      hperm.eq_of_pairwise (fun i j hi hj hij hji ↦ List.inj_on_of_nodup_map hdistinct
        (hperm.subset hi) hj (le_antisymm hij hji)) hfilter ((hsorted k).imp le_of_lt)
    rw [hsame]
    exact hlegal k

end Composed

end Propsim.Foundation
