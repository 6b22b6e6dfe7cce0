import Mathlib.Data.List.Sort
import Mathlib.Order.Basic

/-!
# A set as a sorted list

The elements of a set in the strict order of their keys, so a list with a repetition cannot be
built. Two sets with the same elements are equal (`ext_mem`), and inserting the elements of a list
one after the other adds them all (`mem_insertAll`). Keys are injective.
-/

set_option autoImplicit false
set_option relaxedAutoImplicit false

namespace Propsim.Foundation

variable {α κ : Type*} [LinearOrder κ]

/-- A list of elements in the strict order of their keys. -/
@[ext]
structure OrderedSet (key : α → κ) where
  toList : List α
  sorted : toList.Pairwise fun first second ↦ key first < key second

namespace OrderedSet

variable {key : α → κ}

instance [DecidableEq α] : DecidableEq (OrderedSet key) := fun s t ↦
  decidable_of_iff (s.toList = t.toList) OrderedSet.ext_iff.symm

instance : Membership α (OrderedSet key) := ⟨fun s a ↦ a ∈ s.toList⟩

theorem mem_toList {s : OrderedSet key} {a : α} : a ∈ s.toList ↔ a ∈ s := Iff.rfl

instance [DecidableEq α] (a : α) (s : OrderedSet key) : Decidable (a ∈ s) :=
  inferInstanceAs (Decidable (a ∈ s.toList))

/-- No elements. -/
def empty : OrderedSet key := ⟨[], List.Pairwise.nil⟩

theorem notMem_empty (a : α) : a ∉ (empty : OrderedSet key) := List.not_mem_nil

/-- Inserts an element at its place, unless one with its key is there. -/
def insertAt (key : α → κ) (a : α) : List α → List α
  | [] => [a]
  | b :: rest =>
    if key a < key b then a :: b :: rest
    else if key b < key a then b :: insertAt key a rest
    else b :: rest

theorem of_mem_insertAt {a b : α} {items : List α} (h : b ∈ insertAt key a items) :
    b = a ∨ b ∈ items := by
  induction items with
  | nil => exact .inl (List.mem_singleton.mp h)
  | cons c rest ih =>
    rw [insertAt] at h
    split_ifs at h
    · exact List.mem_cons.mp h
    · rcases List.mem_cons.mp h with rfl | h
      · exact .inr List.mem_cons_self
      · exact (ih h).imp_right (List.mem_cons_of_mem _)
    · exact .inr h

theorem mem_insertAt (hkey : Function.Injective key) {a b : α} {items : List α} :
    b ∈ insertAt key a items ↔ b = a ∨ b ∈ items := by
  refine ⟨of_mem_insertAt, fun h ↦ ?_⟩
  induction items with
  | nil => simpa [insertAt] using h
  | cons c rest ih =>
    rw [List.mem_cons] at h
    rw [insertAt]
    split_ifs with hbefore hafter
    · simpa using h
    · rw [or_left_comm] at h
      exact List.mem_cons.mpr (h.imp_right ih)
    · obtain rfl : a = c := hkey (le_antisymm (not_lt.mp hafter) (not_lt.mp hbefore))
      simpa using h

theorem sorted_insertAt (a : α) {items : List α}
    (hsorted : items.Pairwise fun first second ↦ key first < key second) :
    (insertAt key a items).Pairwise fun first second ↦ key first < key second := by
  induction items with
  | nil => exact List.pairwise_singleton _ _
  | cons b rest ih =>
    obtain ⟨hfirst, hrest⟩ := List.pairwise_cons.mp hsorted
    rw [insertAt]
    split_ifs with hbefore hafter
    · refine List.pairwise_cons.mpr ⟨fun c hc ↦ ?_, hsorted⟩
      rcases List.mem_cons.mp hc with rfl | hc
      · exact hbefore
      · exact hbefore.trans (hfirst c hc)
    · refine List.pairwise_cons.mpr ⟨fun c hc ↦ ?_, ih hrest⟩
      rcases of_mem_insertAt hc with rfl | hc
      · exact hafter
      · exact hfirst c hc
    · exact hsorted

/-- Inserts an element. -/
def insert (s : OrderedSet key) (a : α) : OrderedSet key :=
  ⟨insertAt key a s.toList, sorted_insertAt a s.sorted⟩

theorem mem_insert (hkey : Function.Injective key) {s : OrderedSet key} {a b : α} :
    b ∈ s.insert a ↔ b = a ∨ b ∈ s := mem_insertAt hkey

/-- Inserts the elements of a list one after the other. -/
def insertAll (s : OrderedSet key) (items : List α) : OrderedSet key := items.foldl insert s

theorem mem_insertAll (hkey : Function.Injective key) {s : OrderedSet key} {items : List α}
    {b : α} :
    b ∈ s.insertAll items ↔ b ∈ s ∨ b ∈ items := by
  induction items generalizing s with
  | nil => simp [insertAll]
  | cons a rest ih =>
    rw [insertAll, List.foldl_cons, ← insertAll, ih, mem_insert hkey, List.mem_cons, or_assoc,
      or_left_comm]

/-- Sets with the same elements are equal. -/
theorem ext_mem {s t : OrderedSet key} (h : ∀ a, a ∈ s ↔ a ∈ t) : s = t := by
  have hperm : s.toList.Perm t.toList := by
    have hnodup (s : OrderedSet key) : s.toList.Nodup :=
      s.sorted.imp fun hlt heq ↦ hlt.ne (congrArg key heq)
    exact (List.perm_ext_iff_of_nodup (hnodup s) (hnodup t)).mpr h
  refine OrderedSet.ext (hperm.eq_of_pairwise (fun a b _ _ hab hba ↦ ?_) s.sorted t.sorted)
  exact absurd hab hba.asymm

end OrderedSet

end Propsim.Foundation
