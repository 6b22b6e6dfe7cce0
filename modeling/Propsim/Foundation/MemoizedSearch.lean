import Mathlib.Data.Finset.Basic

/-!
# Depth-first search with a visited set

A search tree of known depth is explored in depth-first order. Nodes are entered in a visited set
when they are first met, before their successors are explored, and a node found in the set is not
explored again. The visited set is threaded through the siblings, so a hit may concern a node met
in another branch.

`searchFrom_fst` shows that the set never changes the answer: when every edge lowers a rank by
one, a node in the set whose rank is not above the current one has been explored completely and in
vain. The nodes still in progress are the ancestors, whose rank is larger.
-/

set_option autoImplicit false
set_option relaxedAutoImplicit false

namespace Propsim.Foundation

variable {α ν : Type*}

/-- Tries the listed nodes in order, threading the visited set, and stops at the first success. -/
def explore (visit : ν → Finset ν → Bool × Finset ν) : List ν → Finset ν → Bool × Finset ν
  | [], visited => (false, visited)
  | node :: rest, visited =>
    match visit node visited with
    | (true, visited) => (true, visited)
    | (false, visited) => explore visit rest visited

/-- Depth-first search to a given depth with a visited set. -/
def searchFrom [DecidableEq ν] (next : ν → List ν) : ℕ → ν → Finset ν → Bool × Finset ν
  | 0, _, visited => (true, visited)
  | depth + 1, node, visited =>
    if node ∈ visited then (false, visited)
    else explore (searchFrom next depth) (next node) (insert node visited)

/-- The same search without a visited set. -/
def backtrack (next : ν → List ν) : ℕ → ν → Bool
  | 0, _ => true
  | depth + 1, node => (next node).any (backtrack next depth)

/-- A loop over items that skips those without a node and returns at the first success is the
exploration of the nodes of the items. -/
theorem foldl_eq_explore (visit : ν → Finset ν → Bool × Finset ν) (node : α → Option ν)
    (items : List α) (visited : Finset ν) :
    items.foldl (fun (answer : Bool × Finset ν) item ↦
        if answer.1 then answer
        else match node item with
          | none => (false, answer.2)
          | some target => visit target answer.2) (false, visited) =
      explore visit (items.filterMap node) visited := by
  have hreturned (rest : List α) (seen : Finset ν) :
      rest.foldl (fun (answer : Bool × Finset ν) item ↦
        if answer.1 then answer
        else match node item with
          | none => (false, answer.2)
          | some target => visit target answer.2) (true, seen) = (true, seen) := by
    induction rest with
    | nil => rfl
    | cons item rest ih => simpa using ih
  induction items generalizing visited with
  | nil => rfl
  | cons item rest ih =>
    rw [List.foldl_cons]
    cases hnode : node item with
    | none => simpa [hnode] using ih visited
    | some target =>
      rw [List.filterMap_cons_some hnode, explore]
      cases hvisit : visit target visited with
      | mk found seen =>
        cases found with
        | true => simpa [hvisit] using hreturned rest seen
        | false => simpa [hvisit] using ih seen

section Correctness

variable [DecidableEq ν] {next : ν → List ν} {rank : ν → ℕ}

/-- Every node of the set at or below a rank has been explored in vain. -/
def Exhausted (next : ν → List ν) (rank : ν → ℕ) (bound : ℕ) (visited : Finset ν) : Prop :=
  ∀ node ∈ visited, rank node ≤ bound → backtrack next (rank node) node = false

/-- What a visit at a given rank owes its caller: the answer of backtracking and, after a failure,
a set that is still exhausted up to that rank and has grown only by nodes of at most that rank. -/
def Answers (next : ν → List ν) (rank : ν → ℕ) (bound : ℕ) (expected : Bool) (visited : Finset ν)
    (answer : Bool × Finset ν) : Prop :=
  answer.1 = expected ∧
    (answer.1 = false → Exhausted next rank bound answer.2 ∧
      ∀ node ∈ answer.2, node ∈ visited ∨ rank node ≤ bound)

omit [DecidableEq ν] in
/-- Assumes: visits of the listed nodes that answer as backtracking does. So does the loop over
them. -/
theorem explore_answers {bound : ℕ} {visit : ν → Finset ν → Bool × Finset ν} (nodes : List ν)
    (hvisit : ∀ node ∈ nodes, ∀ visited, Exhausted next rank bound visited →
      Answers next rank bound (backtrack next bound node) visited (visit node visited))
    (visited : Finset ν) (hexhausted : Exhausted next rank bound visited) :
    Answers next rank bound (nodes.any (backtrack next bound)) visited
      (explore visit nodes visited) := by
  induction nodes generalizing visited with
  | nil => exact ⟨rfl, fun _ ↦ ⟨hexhausted, fun _ hnode ↦ Or.inl hnode⟩⟩
  | cons node rest ih =>
    obtain ⟨hanswer, hfailed⟩ := hvisit node (by simp) visited hexhausted
    rw [explore]
    cases hresult : visit node visited with
    | mk found seen =>
      rw [hresult] at hanswer hfailed
      cases found with
      | true => simp [Answers, ← hanswer]
      | false =>
        obtain ⟨hseen, hgrown⟩ := hfailed rfl
        obtain ⟨hrest, hrestFailed⟩ :=
          ih (fun n hn ↦ hvisit n (List.mem_cons_of_mem _ hn)) seen hseen
        refine ⟨by simpa [← hanswer] using hrest, fun hnone ↦ ?_⟩
        obtain ⟨hfinal, hfinalGrown⟩ := hrestFailed hnone
        refine ⟨hfinal, fun other hother ↦ ?_⟩
        rcases hfinalGrown other hother with hin | hlow
        · exact hgrown other hin
        · exact Or.inr hlow

/-- Assumes: every edge lowers the rank by one, and a visited set exhausted up to the rank of the
node. The search answers as backtracking does. -/
theorem searchFrom_answers (hrank : ∀ node, ∀ target ∈ next node, rank node = rank target + 1)
    (depth : ℕ) (node : ν) (hdepth : rank node = depth) (visited : Finset ν)
    (hexhausted : Exhausted next rank depth visited) :
    Answers next rank depth (backtrack next depth node) visited
      (searchFrom next depth node visited) := by
  induction depth generalizing node visited with
  | zero => simp [Answers, searchFrom, backtrack]
  | succ depth ih =>
    rw [searchFrom]
    split_ifs with hhit
    · have hvain := hexhausted node hhit hdepth.le
      rw [hdepth] at hvain
      exact ⟨hvain.symm, fun _ ↦ ⟨hexhausted, fun _ hnode ↦ Or.inl hnode⟩⟩
    · -- the node itself is in progress: its rank is above the bound of the recursive calls
      have hbelow : Exhausted next rank depth (insert node visited) := by
        intro other hother hle
        rcases Finset.mem_insert.mp hother with rfl | hold
        · omega
        · exact hexhausted other hold (by omega)
      obtain ⟨hanswer, hfailed⟩ := explore_answers (next node)
        (fun target htarget seen hseen ↦
          ih target (by have := hrank node target htarget; omega) seen hseen)
        (insert node visited) hbelow
      refine ⟨hanswer, fun hnone ↦ ?_⟩
      obtain ⟨hseen, hgrown⟩ := hfailed hnone
      refine ⟨fun other hother hle ↦ ?_, fun other hother ↦ ?_⟩
      · rcases hgrown other hother with hin | hlow
        · rcases Finset.mem_insert.mp hin with rfl | hold
          · rw [hdepth, ← hnone, hanswer]
            rfl
          · exact hexhausted other hold hle
        · exact hseen other hother hlow
      · rcases hgrown other hother with hin | hlow
        · rcases Finset.mem_insert.mp hin with rfl | hold
          · exact Or.inr hdepth.le
          · exact Or.inl hold
        · exact Or.inr (by omega)

/-- The visited set never changes the answer. Assumes: every edge lowers the rank by one. -/
theorem searchFrom_fst (hrank : ∀ node, ∀ target ∈ next node, rank node = rank target + 1)
    (node : ν) : (searchFrom next (rank node) node ∅).1 = backtrack next (rank node) node :=
  (searchFrom_answers hrank (rank node) node rfl ∅ (by simp [Exhausted])).1

end Correctness

end Propsim.Foundation
