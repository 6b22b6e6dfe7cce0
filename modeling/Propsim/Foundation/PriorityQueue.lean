import Mathlib.Data.List.Sort

/-!
# A priority queue as a sorted list

The elements are kept in the order of their keys, so an out-of-order queue cannot be built and the
least element is the head. `pop_eq_some_iff` and `perm_push` say all that a client needs: popping
removes the head, and pushing adds one element.
-/

set_option autoImplicit false
set_option relaxedAutoImplicit false

namespace Propsim.Foundation

variable {α κ : Type*} [LinearOrder κ]

/-- A list of elements in the order of their keys. -/
@[ext]
structure PriorityQueue (key : α → κ) where
  toList : List α
  sorted : toList.Pairwise fun first second ↦ key first ≤ key second

namespace PriorityQueue

variable {key : α → κ}

/-- No elements. -/
def empty : PriorityQueue key := ⟨[], List.Pairwise.nil⟩

/-- The number of elements. -/
def length (q : PriorityQueue key) : ℕ := q.toList.length

/-- Inserts an element at its place. -/
def push (q : PriorityQueue key) (a : α) : PriorityQueue key where
  toList := q.toList.orderedInsert (fun first second ↦ key first ≤ key second) a
  sorted := by
    have : Std.Total fun first second : α ↦ key first ≤ key second :=
      ⟨fun first second ↦ le_total (key first) (key second)⟩
    have : IsTrans α fun first second ↦ key first ≤ key second :=
      ⟨fun _ _ _ ↦ le_trans⟩
    exact List.Pairwise.orderedInsert a _ q.sorted

/-- Removes the least element. -/
def pop (q : PriorityQueue key) : Option (α × PriorityQueue key) :=
  match q with
  | ⟨[], _⟩ => none
  | ⟨a :: rest, sorted⟩ => some (a, ⟨rest, (List.pairwise_cons.mp sorted).2⟩)

@[simp] theorem toList_empty : (empty : PriorityQueue key).toList = [] := rfl

theorem pop_eq_none_iff {q : PriorityQueue key} : q.pop = none ↔ q.toList = [] := by
  rcases q with ⟨_ | ⟨a, rest⟩, sorted⟩ <;> simp [pop]

theorem pop_eq_some_iff {q rest : PriorityQueue key} {a : α} :
    q.pop = some (a, rest) ↔ q.toList = a :: rest.toList := by
  rcases q with ⟨_ | ⟨b, items⟩, sorted⟩
  · simp [pop]
  · simp only [pop, Option.some.injEq, Prod.mk.injEq, List.cons.injEq, PriorityQueue.ext_iff]

/-- Pushing adds exactly one element. -/
theorem perm_push (q : PriorityQueue key) (a : α) :
    (q.push a).toList.Perm (a :: q.toList) := List.perm_orderedInsert _ a q.toList

@[simp] theorem mem_push {q : PriorityQueue key} {a b : α} :
    b ∈ (q.push a).toList ↔ b = a ∨ b ∈ q.toList := by
  rw [(perm_push q a).mem_iff, List.mem_cons]

theorem mem_pop_iff {q rest : PriorityQueue key} {a b : α} (h : q.pop = some (a, rest)) :
    b ∈ q.toList ↔ b = a ∨ b ∈ rest.toList := by
  rw [pop_eq_some_iff.mp h, List.mem_cons]

theorem mem_of_pop {q rest : PriorityQueue key} {a : α} (h : q.pop = some (a, rest)) :
    a ∈ q.toList := (mem_pop_iff h).mpr (.inl rfl)

theorem mem_of_mem_pop {q rest : PriorityQueue key} {a b : α} (h : q.pop = some (a, rest))
    (hb : b ∈ rest.toList) : b ∈ q.toList := (mem_pop_iff h).mpr (.inr hb)

/-- The head has the least key. -/
theorem key_le_of_pop {q rest : PriorityQueue key} {a : α} (h : q.pop = some (a, rest)) :
    ∀ b ∈ rest.toList, key a ≤ key b := by
  have hsorted := q.sorted
  rw [pop_eq_some_iff.mp h] at hsorted
  exact (List.pairwise_cons.mp hsorted).1

theorem length_of_pop {q rest : PriorityQueue key} {a : α} (h : q.pop = some (a, rest)) :
    q.length = rest.length + 1 := by
  rw [length, pop_eq_some_iff.mp h, List.length_cons, length]

/-- Nothing in a list is below a key that its head is not below. -/
theorem filter_lt_eq_nil {b : α} {rest : List α} {k : κ} (hleast : ∀ c ∈ rest, key b ≤ key c)
    (hb : k ≤ key b) : (b :: rest).filter (fun c ↦ key c < k) = [] := by
  rw [List.filter_eq_nil_iff]
  intro c hc
  rcases List.mem_cons.mp hc with rfl | hc
  · simpa using hb
  · simpa using hb.trans (hleast c hc)

/-- All of a list is above a key that its head is above. -/
theorem filter_ge_eq_self {b : α} {rest : List α} {k : κ} (hleast : ∀ c ∈ rest, key b ≤ key c)
    (hb : k ≤ key b) : (b :: rest).filter (fun c ↦ k ≤ key c) = b :: rest := by
  rw [List.filter_eq_self]
  intro c hc
  rcases List.mem_cons.mp hc with rfl | hc
  · simpa using hb
  · simpa using hb.trans (hleast c hc)

/-- The elements below a key come before the others. -/
theorem toList_eq_filter_append (q : PriorityQueue key) (k : κ) :
    q.toList = q.toList.filter (fun b ↦ key b < k) ++ q.toList.filter fun b ↦ k ≤ key b := by
  obtain ⟨items, hsorted⟩ := q
  change items = _ ++ _
  induction items with
  | nil => rfl
  | cons b rest ih =>
    obtain ⟨hleast, hrest⟩ := List.pairwise_cons.mp hsorted
    by_cases hb : key b < k
    · rw [List.filter_cons_of_pos (by simpa using hb),
        List.filter_cons_of_neg (by simpa using hb), List.cons_append]
      exact congrArg (b :: ·) (ih hrest)
    · have hge := not_lt.mp hb
      rw [filter_lt_eq_nil hleast hge, filter_ge_eq_self hleast hge, List.nil_append]

/-- Pushing inserts before the first element that is not below. -/
theorem toList_push (q : PriorityQueue key) (a : α) :
    (q.push a).toList =
      q.toList.filter (fun b ↦ key b < key a) ++ a :: q.toList.filter fun b ↦ key a ≤ key b := by
  obtain ⟨items, hsorted⟩ := q
  change items.orderedInsert _ a = _ ++ a :: _
  induction items with
  | nil => rfl
  | cons b rest ih =>
    obtain ⟨hleast, hrest⟩ := List.pairwise_cons.mp hsorted
    rw [List.orderedInsert_cons]
    by_cases hb : key a ≤ key b
    · rw [if_pos hb, filter_lt_eq_nil hleast hb, filter_ge_eq_self hleast hb, List.nil_append]
    · rw [if_neg hb, ih hrest, List.filter_cons_of_pos (by simpa using hb),
        List.filter_cons_of_neg (by simpa using hb), List.cons_append]

/-- Pushing an element that is not selected leaves those that are selected. -/
theorem filterMap_push_of_none {β : Type*} {f : α → Option β} (q : PriorityQueue key) {a : α}
    (ha : f a = none) : (q.push a).toList.filterMap f = q.toList.filterMap f := by
  conv_rhs =>
    rw [q.toList_eq_filter_append (key a)]
  rw [toList_push, List.filterMap_append, List.filterMap_append, List.filterMap_cons_none ha]

/-- Pushing an element that does not pass a filter leaves those that do. -/
theorem filter_push_of_neg (q : PriorityQueue key) {a : α} {p : α → Bool} (ha : p a = false) :
    (q.push a).toList.filter p = q.toList.filter p := by
  simp only [← List.filterMap_eq_filter]
  exact q.filterMap_push_of_none (Option.guard_eq_none_iff.mpr (by simp [ha]))

/-- Pushing an element above those that pass a filter adds it to them at the end. -/
theorem filter_push_last (q : PriorityQueue key) (x : α) {p : α → Bool} (hx : p x = true)
    (h : ∀ b ∈ q.toList, p b = true → key b < key x) :
    (q.push x).toList.filter p = q.toList.filter p ++ [x] := by
  have hbelow : (q.toList.filter fun b ↦ key b < key x).filter p = q.toList.filter p := by
    rw [List.filter_filter]
    refine List.filter_congr fun b hb ↦ ?_
    cases hp : p b with
    | false => rfl
    | true => simpa using h b hb hp
  have habove : (q.toList.filter fun b ↦ key x ≤ key b).filter p = [] := by
    refine List.filter_eq_nil_iff.mpr fun b hb hp ↦ ?_
    obtain ⟨hb, hle⟩ := List.mem_filter.mp hb
    exact absurd (h b hb hp) (not_lt.mpr (of_decide_eq_true hle))
  rw [toList_push, List.filter_append, List.filter_cons_of_pos hx, hbelow, habove]

/-- Pushing an element above those that are selected selects it at the end. -/
theorem filterMap_push_last {β : Type*} {f : α → Option β} (q : PriorityQueue key) {x : α} {y : β}
    (hx : f x = some y) (h : ∀ b ∈ q.toList, (f b).isSome = true → key b < key x) :
    (q.push x).toList.filterMap f = q.toList.filterMap f ++ [y] := by
  have hselected (items : List α) :
      (items.filter fun b ↦ (f b).isSome).filterMap f = items.filterMap f := by
    rw [List.filterMap_filter]
    refine List.filterMap_congr fun b _ ↦ ?_
    cases f b <;> rfl
  have hpush := q.filter_push_last x (p := fun b ↦ (f b).isSome) (by rw [hx]; rfl) h
  rw [← hselected, hpush, List.filterMap_append, hselected, List.filterMap_cons_some hx]
  rfl

end PriorityQueue

end Propsim.Foundation
