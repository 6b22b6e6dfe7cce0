import Propsim.Interchange.Alternation
import Mathlib.Data.List.Pairwise

/-!
# Well-formed histories

A history is well formed when it is numbered and timed in order, the entries of each process
alternate and end closed, and a completion carries the `:f` of its Invoke. Then Invokes and
completions are paired one to one (`WellFormed.existsUnique_completion`,
`WellFormed.existsUnique_invoke`).
-/

set_option autoImplicit false
set_option relaxedAutoImplicit false

namespace Propsim.Interchange

/-- Every Invoke of an alternating history is open or completed. -/
theorem Alternates.openAt_or_completes {entries : List OpEntry} (h : Alternates entries) {i : ℕ}
    {inv : OpEntry} (hentry : entries[i]? = some inv) (hkind : inv.kind = .invoke) :
    OpenAt entries i inv ∨ ∃ j c, Completes entries ⟨i, j⟩ inv c := by
  induction entries using List.reverseRecOn with
  | nil => simp at hentry
  | append_singleton entries e ih =>
    rw [openAt_append_singleton]
    obtain ⟨hold, hnew⟩ := (alternates_append_singleton entries e).mp h
    rw [List.getElem?_append] at hentry
    split_ifs at hentry with hlt
    · rcases ih hold hentry with hopen | ⟨j, c, hcompletes⟩
      · by_cases hp : e.process = inv.process
        · refine Or.inr ⟨entries.length, e, ?_⟩
          refine (completes_append_singleton entries e ⟨i, entries.length⟩ inv e).mpr
            (Or.inr ⟨rfl, rfl, fun hinvoke ↦ ?_, hp, hopen⟩)
          exact (hold.odd_iff_exists_open e.process).mpr ⟨i, inv, hopen, hp.symm⟩
            (hnew.mp hinvoke)
        · exact Or.inl (Or.inl ⟨hopen, hp⟩)
      · exact Or.inr ⟨j, c,
          (completes_append_singleton entries e ⟨i, j⟩ inv c).mpr (Or.inl hcompletes)⟩
    · obtain ⟨hlen, rfl⟩ := List.getElem?_eq_some_iff.mp hentry
      simp only [List.length_singleton] at hlen
      exact Or.inl (Or.inr ⟨by omega, by simp, by simpa using hkind⟩)

/-- Every completion of an alternating history completes an Invoke. -/
theorem Alternates.exists_invoke {entries : List OpEntry} (h : Alternates entries) {j : ℕ}
    {c : OpEntry} (hentry : entries[j]? = some c) (hkind : c.kind ≠ .invoke) :
    ∃ i inv, Completes entries ⟨i, j⟩ inv c := by
  induction entries using List.reverseRecOn with
  | nil => simp at hentry
  | append_singleton entries e ih =>
    obtain ⟨hold, hnew⟩ := (alternates_append_singleton entries e).mp h
    rw [List.getElem?_append] at hentry
    split_ifs at hentry with hlt
    · obtain ⟨i, inv, hcompletes⟩ := ih hold hentry
      exact ⟨i, inv, (completes_append_singleton entries e ⟨i, j⟩ inv c).mpr (Or.inl hcompletes)⟩
    · obtain ⟨hlen, hget⟩ := List.getElem?_eq_some_iff.mp hentry
      have hlast : j = entries.length := by
        simp only [List.length_singleton] at hlen
        omega
      obtain rfl : e = c := by simpa [hlast] using hget
      have hbusy : ¬ Even (project e.process entries).length := fun heven ↦ hkind (hnew.mpr heven)
      obtain ⟨i, inv, hopen, hp⟩ := (hold.odd_iff_exists_open e.process).mp hbusy
      exact ⟨i, inv, (completes_append_singleton entries e ⟨i, j⟩ inv e).mpr
        (Or.inr ⟨hlast, rfl, hkind, hp.symm, hopen⟩)⟩

/-- An alternating history without Invokes is empty. -/
theorem Alternates.eq_nil {entries : List OpEntry} (h : Alternates entries)
    (hnone : ∀ entry ∈ entries, entry.kind ≠ .invoke) : entries = [] := by
  refine List.eq_nil_iff_forall_not_mem.mpr fun entry hentry ↦ ?_
  obtain ⟨j, hj⟩ := List.mem_iff_getElem?.mp hentry
  obtain ⟨i, inv, hcompletes⟩ := h.exists_invoke hj (hnone entry hentry)
  exact hnone inv (List.mem_of_getElem? hcompletes.invoke_entry) hcompletes.invoke_kind

/-- A completion completes one Invoke. -/
theorem Completes.invoke_unique {entries : List OpEntry} {o o' : Operation}
    {inv c inv' c' : OpEntry} (h : Completes entries o inv c) (h' : Completes entries o' inv' c')
    (hcompletion : o.completion = o'.completion) : o = o' := by
  have hc : c = c' :=
    Option.some.inj (h.completion_entry.symm.trans (hcompletion ▸ h'.completion_entry))
  have hprocess : inv.process = inv'.process := by
    rw [← h.process_eq, ← h'.process_eq, hc]
  have hlt := h.invoke_lt
  have hlt' := h'.invoke_lt
  have hinvoke : o.invoke = o'.invoke := by
    rcases Nat.lt_trichotomy o.invoke o'.invoke with hbefore | heq | hafter
    · exact absurd hprocess.symm (h.adjacent _ _ hbefore (by omega) h'.invoke_entry)
    · exact heq
    · exact absurd hprocess (h'.adjacent _ _ hafter (by omega) h.invoke_entry)
  ext
  · exact hinvoke
  · exact hcompletion

/-- No Invoke stands at the position of a completion. -/
theorem Completes.invoke_ne_completion {entries : List OpEntry} {o o' : Operation}
    {inv c inv' c' : OpEntry} (h : Completes entries o inv c)
    (h' : Completes entries o' inv' c') : o.invoke ≠ o'.completion := by
  intro heq
  have hentry := h.invoke_entry
  rw [heq, h'.completion_entry] at hentry
  obtain rfl := Option.some.inj hentry
  exact h'.completion_kind h.invoke_kind

/-- A well-formed history. -/
structure WellFormed (entries : List OpEntry) : Prop where
  index_eq : ∀ (i : ℕ) (e : OpEntry), entries[i]? = some e → e.index = .ofNat i
  times : entries.Pairwise fun first second ↦ first.time.nanos ≤ second.time.nanos
  alternates : Alternates entries
  settled : Settled entries
  function_eq : ∀ o inv c, Completes entries o inv c → c.f = inv.f

namespace WellFormed

variable {entries : List OpEntry}

/-- No Invoke of a well-formed history is open. -/
theorem not_openAt (h : WellFormed entries) (i : ℕ) (inv : OpEntry) : ¬ OpenAt entries i inv :=
  fun hopen ↦
    (h.alternates.odd_iff_exists_open inv.process).mpr ⟨i, inv, hopen, rfl⟩ (h.settled inv.process)

/-- Every Invoke has exactly one completion, with its process and `:f`. -/
theorem existsUnique_completion (h : WellFormed entries) {i : ℕ} {inv : OpEntry}
    (hentry : entries[i]? = some inv) (hkind : inv.kind = .invoke) :
    ∃! j : ℕ, ∃ c, Completes entries ⟨i, j⟩ inv c ∧ c.process = inv.process ∧ c.f = inv.f := by
  obtain ⟨j, c, hcompletes⟩ :=
    (h.alternates.openAt_or_completes hentry hkind).resolve_left (h.not_openAt i inv)
  refine ⟨j, ⟨c, hcompletes, hcompletes.process_eq, h.function_eq _ _ _ hcompletes⟩, ?_⟩
  rintro j' ⟨c', hcompletes', -⟩
  exact congrArg Operation.completion (hcompletes'.unique hcompletes rfl)

/-- Every completion belongs to exactly one Invoke, with its process and `:f`. -/
theorem existsUnique_invoke (h : WellFormed entries) {j : ℕ} {c : OpEntry}
    (hentry : entries[j]? = some c) (hkind : c.kind ≠ .invoke) :
    ∃! i : ℕ, ∃ inv, Completes entries ⟨i, j⟩ inv c ∧ inv.process = c.process ∧ inv.f = c.f := by
  obtain ⟨i, inv, hcompletes⟩ := h.alternates.exists_invoke hentry hkind
  refine ⟨i, ⟨inv, hcompletes, hcompletes.process_eq.symm,
    (h.function_eq _ _ _ hcompletes).symm⟩, ?_⟩
  rintro i' ⟨inv', hcompletes', -⟩
  exact congrArg Operation.invoke (hcompletes'.invoke_unique hcompletes rfl)

end WellFormed

end Propsim.Interchange
