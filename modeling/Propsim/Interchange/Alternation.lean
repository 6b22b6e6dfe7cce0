import Propsim.Interchange.Operation
import Mathlib.Data.List.Induction
import Mathlib.Algebra.Ring.Parity

/-!
# The operations of a history

The entries of one process in a well-formed history alternate between an Invoke and its
completion. An operation of a history is then the pair of positions of an Invoke and of the next
entry of its process. The lemmas on `entries ++ [e]` say how one more entry changes the open
Invokes and the operations; they carry every induction along a history.
-/

set_option autoImplicit false
set_option relaxedAutoImplicit false

namespace Propsim.Interchange

/-- The entries of one process, in order. -/
def project (p : ProcessId) (entries : List OpEntry) : List OpEntry :=
  entries.filter fun e ↦ e.process = p

/-- The entries of each process alternate: Invoke, completion, Invoke, completion, and so on. The
last Invoke of a process may still be open. -/
def Alternates (entries : List OpEntry) : Prop :=
  ∀ (p : ProcessId) (k : ℕ) (e : OpEntry), (project p entries)[k]? = some e →
    (e.kind = .invoke ↔ Even k)

/-- No process ends with an open Invoke. -/
def Settled (entries : List OpEntry) : Prop :=
  ∀ p, Even (project p entries).length

/-- An operation of a history: the positions of its Invoke and of its completion. -/
@[ext]
structure Operation where
  invoke : ℕ
  completion : ℕ
  deriving DecidableEq

/-- The entries at the two positions of an operation are an Invoke and the next entry of the same
process, which completes it. -/
structure Completes (entries : List OpEntry) (o : Operation) (inv c : OpEntry) : Prop where
  invoke_entry : entries[o.invoke]? = some inv
  completion_entry : entries[o.completion]? = some c
  invoke_kind : inv.kind = .invoke
  completion_kind : c.kind ≠ .invoke
  process_eq : c.process = inv.process
  invoke_lt : o.invoke < o.completion
  adjacent : ∀ k e, o.invoke < k → k < o.completion → entries[k]? = some e →
    e.process ≠ inv.process

/-- The entry at a position is an Invoke that no later entry of its process completes. -/
structure OpenAt (entries : List OpEntry) (i : ℕ) (inv : OpEntry) : Prop where
  entry : entries[i]? = some inv
  kind : inv.kind = .invoke
  last : ∀ k e, i < k → entries[k]? = some e → e.process ≠ inv.process

theorem project_append_singleton (p : ProcessId) (entries : List OpEntry) (e : OpEntry) :
    project p (entries ++ [e]) =
      if e.process = p then project p entries ++ [e] else project p entries := by
  unfold project
  rw [List.filter_append]
  split_ifs with h <;> simp [h]

/-- One more entry keeps a history alternating exactly when it is an Invoke of an idle process or
a completion of a busy one. -/
theorem alternates_append_singleton (entries : List OpEntry) (e : OpEntry) :
    Alternates (entries ++ [e]) ↔
      Alternates entries ∧ (e.kind = .invoke ↔ Even (project e.process entries).length) := by
  constructor
  · intro h
    constructor
    · intro p k e' he'
      refine h p k e' ?_
      rw [project_append_singleton]
      split_ifs
      · rw [List.getElem?_append_left (List.getElem?_eq_some_iff.mp he').1]
        exact he'
      · exact he'
    · refine h e.process (project e.process entries).length e ?_
      rw [project_append_singleton, if_pos rfl]
      exact List.getElem?_concat_length
  · rintro ⟨hold, hnew⟩ p k e' he'
    rw [project_append_singleton] at he'
    split_ifs at he' with hp
    · rw [List.getElem?_append] at he'
      split_ifs at he' with hlt
      · exact hold p k e' he'
      · obtain ⟨hlen, rfl⟩ := List.getElem?_eq_some_iff.mp he'
        have hk : k = (project p entries).length := by
          simp only [List.length_singleton] at hlen
          omega
        subst hp
        simpa [hk] using hnew
    · exact hold p k e' he'

theorem Alternates.of_append {entries : List OpEntry} {e : OpEntry}
    (h : Alternates (entries ++ [e])) : Alternates entries :=
  ((alternates_append_singleton entries e).mp h).1

theorem alternates_nil : Alternates [] := by
  intro p k e h
  simp [project] at h

/-- Only the processes that occur in a history need checking. -/
theorem alternates_iff_forall_mem (entries : List OpEntry) :
    Alternates entries ↔ ∀ e ∈ entries, ∀ k : Fin (project e.process entries).length,
      ((project e.process entries)[k].kind = .invoke ↔ Even k.val) := by
  constructor
  · intro h e _ k
    exact h e.process k _ (List.getElem?_eq_getElem k.isLt)
  · intro h p k e he
    have hmem := List.mem_filter.mp (List.mem_of_getElem? he)
    have hp : e.process = p := by simpa using hmem.2
    subst hp
    obtain ⟨hlt, hget⟩ := List.getElem?_eq_some_iff.mp he
    simpa [hget] using h e hmem.1 ⟨k, hlt⟩

instance (entries : List OpEntry) : Decidable (Alternates entries) :=
  decidable_of_iff _ (alternates_iff_forall_mem entries).symm

/-- An operation is determined by its Invoke. -/
theorem Completes.unique {entries : List OpEntry} {o o' : Operation}
    {inv c inv' c' : OpEntry} (h : Completes entries o inv c) (h' : Completes entries o' inv' c')
    (hinvoke : o.invoke = o'.invoke) : o = o' := by
  have hinv : inv = inv' :=
    Option.some.inj ((hinvoke ▸ h.invoke_entry).symm.trans h'.invoke_entry)
  have hlt := h.invoke_lt
  have hlt' := h'.invoke_lt
  have hcompletion : o.completion = o'.completion := by
    rcases Nat.lt_trichotomy o.completion o'.completion with hbefore | heq | hafter
    · exact absurd (hinv ▸ h.process_eq)
        (h'.adjacent _ _ (by omega) hbefore h.completion_entry)
    · exact heq
    · exact absurd (hinv ▸ h'.process_eq)
        (h.adjacent _ _ (by omega) hafter h'.completion_entry)
  ext
  · exact hinvoke
  · exact hcompletion

/-- A process has at most one open Invoke. -/
theorem OpenAt.unique {entries : List OpEntry} {i j : ℕ} {first second : OpEntry}
    (hfirst : OpenAt entries i first) (hsecond : OpenAt entries j second)
    (hprocess : first.process = second.process) : i = j ∧ first = second := by
  have hij : i = j := by
    rcases Nat.lt_trichotomy i j with hlt | heq | hgt
    · exact absurd hprocess.symm (hfirst.last j second hlt hsecond.entry)
    · exact heq
    · exact absurd hprocess (hsecond.last i first hgt hfirst.entry)
  subst hij
  exact ⟨rfl, Option.some.inj (hfirst.entry.symm.trans hsecond.entry)⟩

/-- One more entry closes the open Invoke of its process, and is open itself when it is an
Invoke. -/
theorem openAt_append_singleton (entries : List OpEntry) (e : OpEntry) (i : ℕ) (inv : OpEntry) :
    OpenAt (entries ++ [e]) i inv ↔
      (OpenAt entries i inv ∧ e.process ≠ inv.process) ∨
        (i = entries.length ∧ inv = e ∧ e.kind = .invoke) := by
  constructor
  · rintro ⟨hentry, hkind, hlast⟩
    rcases Nat.lt_trichotomy i entries.length with hlt | rfl | hgt
    · rw [List.getElem?_append_left hlt] at hentry
      refine Or.inl ⟨⟨hentry, hkind, fun k e' hk he' ↦ hlast k e' hk ?_⟩, ?_⟩
      · rw [List.getElem?_append_left (List.getElem?_eq_some_iff.mp he').1]
        exact he'
      · exact hlast entries.length e hlt List.getElem?_concat_length
    · rw [List.getElem?_concat_length, Option.some.injEq] at hentry
      exact Or.inr ⟨rfl, hentry.symm, hentry ▸ hkind⟩
    · have := (List.getElem?_eq_some_iff.mp hentry).1
      simp only [List.length_append, List.length_singleton] at this
      omega
  · rintro (⟨⟨hentry, hkind, hlast⟩, hne⟩ | ⟨rfl, rfl, hkind⟩)
    · have hlt := (List.getElem?_eq_some_iff.mp hentry).1
      refine ⟨by rwa [List.getElem?_append_left hlt], hkind, fun k e' hk he' ↦ ?_⟩
      rw [List.getElem?_append] at he'
      split_ifs at he' with hklt
      · exact hlast k e' hk he'
      · rw [List.mem_singleton.mp (List.mem_of_getElem? he')]
        exact hne
    · refine ⟨List.getElem?_concat_length, hkind, fun k e' hk he' ↦ ?_⟩
      have := (List.getElem?_eq_some_iff.mp he').1
      simp only [List.length_append, List.length_singleton] at this
      omega

/-- One more entry completes at most one operation: the open one of its process. -/
theorem completes_append_singleton (entries : List OpEntry) (e : OpEntry) (o : Operation)
    (inv c : OpEntry) :
    Completes (entries ++ [e]) o inv c ↔
      Completes entries o inv c ∨
        (o.completion = entries.length ∧ c = e ∧ e.kind ≠ .invoke ∧
          e.process = inv.process ∧ OpenAt entries o.invoke inv) := by
  constructor
  · rintro ⟨hinv, hc, hik, hck, hp, hlt, hadjacent⟩
    have hbound := (List.getElem?_eq_some_iff.mp hc).1
    simp only [List.length_append, List.length_singleton] at hbound
    have hinvlt : o.invoke < entries.length := by omega
    rw [List.getElem?_append_left hinvlt] at hinv
    have hold (k : ℕ) (e' : OpEntry) (he' : entries[k]? = some e') :
        (entries ++ [e])[k]? = some e' := by
      rwa [List.getElem?_append_left (List.getElem?_eq_some_iff.mp he').1]
    by_cases hlast : o.completion = entries.length
    · rw [hlast, List.getElem?_concat_length, Option.some.injEq] at hc
      subst hc
      refine Or.inr ⟨hlast, rfl, hck, hp, hinv, hik, fun k e' hk he' ↦ ?_⟩
      have := (List.getElem?_eq_some_iff.mp he').1
      exact hadjacent k e' hk (by omega) (hold k e' he')
    · rw [List.getElem?_append_left (by omega)] at hc
      exact Or.inl ⟨hinv, hc, hik, hck, hp, hlt, fun k e' h1 h2 he' ↦
        hadjacent k e' h1 h2 (hold k e' he')⟩
  · rintro (⟨hinv, hc, hik, hck, hp, hlt, hadjacent⟩ | ⟨hlast, rfl, hck, hp, hopen⟩)
    · have hinvlt := (List.getElem?_eq_some_iff.mp hinv).1
      have hclt := (List.getElem?_eq_some_iff.mp hc).1
      refine ⟨by rwa [List.getElem?_append_left hinvlt], by rwa [List.getElem?_append_left hclt],
        hik, hck, hp, hlt, fun k e' h1 h2 he' ↦ hadjacent k e' h1 h2 ?_⟩
      rwa [List.getElem?_append_left (by omega)] at he'
    · have hinvlt := (List.getElem?_eq_some_iff.mp hopen.entry).1
      refine ⟨?_, ?_, hopen.kind, hck, hp, by omega, fun k e' h1 h2 he' ↦ ?_⟩
      · rw [List.getElem?_append_left hinvlt]
        exact hopen.entry
      · rw [hlast, List.getElem?_concat_length]
      · rw [List.getElem?_append_left (by omega)] at he'
        exact hopen.last k e' h1 he'

/-- In an alternating history a process is busy exactly when it has an open Invoke. -/
theorem Alternates.odd_iff_exists_open {entries : List OpEntry} (h : Alternates entries)
    (p : ProcessId) :
    ¬ Even (project p entries).length ↔ ∃ i inv, OpenAt entries i inv ∧ inv.process = p := by
  induction entries using List.reverseRecOn with
  | nil =>
    simp only [project, List.filter_nil, List.length_nil, Even.zero, not_true_eq_false, false_iff]
    rintro ⟨i, inv, hopen, -⟩
    simpa using hopen.entry
  | append_singleton entries e ih =>
    obtain ⟨hold, hkind⟩ := (alternates_append_singleton entries e).mp h
    simp only [openAt_append_singleton]
    rw [project_append_singleton]
    split_ifs with hp
    · subst hp
      rw [List.length_append, List.length_singleton, Nat.even_add_one, not_not, ← hkind]
      constructor
      · intro hinvoke
        exact ⟨entries.length, e, Or.inr ⟨rfl, rfl, hinvoke⟩, rfl⟩
      · rintro ⟨i, inv, ⟨-, hne⟩ | ⟨-, -, hinvoke⟩, hprocess⟩
        · exact absurd hprocess.symm hne
        · exact hinvoke
    · rw [ih hold]
      constructor
      · rintro ⟨i, inv, hopen, rfl⟩
        exact ⟨i, inv, Or.inl ⟨hopen, hp⟩, rfl⟩
      · rintro ⟨i, inv, ⟨hopen, -⟩ | ⟨-, rfl, -⟩, hprocess⟩
        · exact ⟨i, inv, hopen, hprocess⟩
        · exact absurd hprocess hp

end Propsim.Interchange
