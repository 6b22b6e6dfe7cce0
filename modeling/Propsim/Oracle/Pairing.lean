import Propsim.Interchange.Nesting
import Propsim.Oracle.Linearizability

/-!
# What the pairing loop computes

Whatever the history, the pairing loop keeps as open exactly the pending Invokes of the entries it
has read, and its spans are exactly the Invokes and completions that belong together, did not fail
and decode, in the order of their completions (`paired_pairEntries`). Each statement is carried from
one entry to the next by `pairEntries_append`.
-/

set_option autoImplicit false
set_option relaxedAutoImplicit false

namespace Propsim.Oracle

open Foundation Interchange

variable {M : SequentialModel}

/-- The model operation and the response observed by the operation at two positions. -/
def decodeAt (M : SequentialModel) (entries : List OpEntry) (o : Operation) :
    Option (M.Op × Response) :=
  match entries[o.invoke]?, entries[o.completion]? with
  | some inv, some c => M.decode c.f.name inv.value c.value
  | _, _ => none

theorem decodeAt_eq {entries : List OpEntry} {o : Operation} {inv c : OpEntry}
    (h : Completes entries o inv c) :
    decodeAt M entries o = M.decode c.f.name inv.value c.value := by
  simp only [decodeAt, h.invoke_entry, h.completion_entry]

theorem pairEntries_append (entries : List OpEntry) (e : OpEntry) :
    pairEntries M (entries ++ [e]) = pairEntry M (pairEntries M entries) (e, entries.length) := by
  simp [pairEntries, List.zipIdx_append]

/-- The position found holds an element with the property, and no later position does. -/
theorem rposition_eq_some {α : Type} {p : α → Bool} {items : List α} {i : ℕ}
    (h : rposition p items = some i) :
    ∃ a, items[i]? = some a ∧ p a = true ∧
      ∀ k b, i < k → items[k]? = some b → p b = false := by
  obtain ⟨fromEnd, hfind, rfl⟩ := Option.map_eq_some_iff.mp h
  obtain ⟨hlt, hp, hbefore⟩ := List.findIdx?_eq_some_iff_getElem.mp hfind
  rw [List.getElem_reverse] at hp
  refine ⟨_, List.getElem?_eq_getElem _, hp, fun k b hk hb ↦ ?_⟩
  obtain ⟨hklt, rfl⟩ := List.getElem?_eq_some_iff.mp hb
  have hlast := hbefore (items.length - 1 - k) (by omega)
  have hback : items.length - 1 - (items.length - 1 - k) = k := by omega
  simpa [List.getElem_reverse, hback] using hlast

/-- A position is found when some element has the property. -/
theorem rposition_ne_none {α : Type} {p : α → Bool} {items : List α} {a : α} (ha : a ∈ items)
    (hp : p a = true) : rposition p items ≠ none := by
  simp only [rposition, ne_eq, Option.map_eq_none_iff, List.findIdx?_eq_none_iff]
  intro hnone
  have := hnone a (List.mem_reverse.mpr ha)
  simp [hp] at this

/-- The span that a completion yields with the Invoke it closes: none when it failed or does not
decode. -/
def closingSpans (M : SequentialModel) (e : OpEntry) (pos : ℕ) (opened : ℕ × OpEntry) :
    List (Span M.Op) :=
  if e.kind = .fail then []
  else ((M.decode e.f.name opened.2.value e.value).map
    fun decoded ↦ ⟨decoded.1, decoded.2, opened.1, pos⟩).toList

/-- What one entry of the pairing loop does. An Invoke is opened. A completion of a process with
no open Invoke is ignored. Any other completion closes the last open Invoke of its process. -/
theorem pairEntry_cases (state : Pairing M.Op) (e : OpEntry) (pos : ℕ) :
    (e.kind = .invoke ∧
      pairEntry M state (e, pos) = ⟨state.opened ++ [(pos, e)], state.spans⟩) ∨
    (e.kind ≠ .invoke ∧ (∀ a ∈ state.opened, a.2.process ≠ e.process) ∧
      pairEntry M state (e, pos) = state) ∨
    (e.kind ≠ .invoke ∧ ∃ idx a, state.opened[idx]? = some a ∧ a.2.process = e.process ∧
      (∀ k b, idx < k → state.opened[k]? = some b → b.2.process ≠ e.process) ∧
      pairEntry M state (e, pos) =
        ⟨state.opened.eraseIdx idx, state.spans ++ closingSpans M e pos a⟩) := by
  by_cases hkind : e.kind = .invoke
  · exact Or.inl ⟨hkind, by simp [pairEntry, hkind]⟩
  · refine Or.inr ?_
    cases hpos : rposition (fun o ↦ o.2.process == e.process) state.opened with
    | none =>
      refine Or.inl ⟨hkind, fun a ha hprocess ↦ ?_, ?_⟩
      · exact rposition_ne_none ha (by simpa using hprocess) hpos
      · cases hcase : e.kind with
        | invoke => exact absurd hcase hkind
        | ok | fail | info => simp only [pairEntry, hcase, hpos]
    | some idx =>
      obtain ⟨a, hget, hprocess, hlast⟩ := rposition_eq_some hpos
      refine Or.inr ⟨hkind, idx, a, hget, by simpa using hprocess, fun k b hk hb ↦ ?_, ?_⟩
      · simpa using hlast k b hk hb
      · cases hcase : e.kind with
        | invoke => exact absurd hcase hkind
        | fail => simp [pairEntry, closingSpans, hcase, hpos, hget]
        | ok | info =>
          cases hdecode : M.decode e.f.name a.2.value e.value <;>
            simp [pairEntry, closingSpans, hcase, hpos, hget, hdecode]

/-- What the pairing loop has computed after some entries of a history. -/
structure Paired (M : SequentialModel) (entries : List OpEntry) (state : Pairing M.Op) :
    Prop where
  opened_sorted : state.opened.Pairwise fun first second ↦ first.1 < second.1
  mem_opened : ∀ i inv, (i, inv) ∈ state.opened ↔ Pending entries i inv
  mem_spans : ∀ span, span ∈ state.spans ↔ ∃ inv c,
    Closes entries ⟨span.start, span.finish⟩ inv c ∧ c.kind ≠ .fail ∧
      M.decode c.f.name inv.value c.value = some (span.op, span.response)
  finish_lt : ∀ span ∈ state.spans, span.finish < entries.length
  finish_sorted : state.spans.Pairwise fun first second ↦ first.finish < second.finish

theorem mem_closingSpans {e : OpEntry} {pos : ℕ} {opened : ℕ × OpEntry} {span : Span M.Op} :
    span ∈ closingSpans M e pos opened ↔ e.kind ≠ .fail ∧ span.start = opened.1 ∧
      span.finish = pos ∧
        M.decode e.f.name opened.2.value e.value = some (span.op, span.response) := by
  unfold closingSpans
  split_ifs with hfail
  · simp [hfail]
  · simp only [Option.mem_toList, Option.map_eq_some_iff]
    constructor
    · rintro ⟨decoded, hdecode, rfl⟩
      exact ⟨hfail, rfl, rfl, hdecode⟩
    · rintro ⟨-, hstart, hfinish, hdecode⟩
      exact ⟨(span.op, span.response), hdecode, by rw [← hstart, ← hfinish]⟩

/-- The spans after a completion that closes the open Invoke `a`. -/
theorem Paired.spans_append {entries : List OpEntry} {state : Pairing M.Op}
    (h : Paired M entries state) (e : OpEntry) (a : ℕ × OpEntry) :
    (∀ span ∈ state.spans ++ closingSpans M e entries.length a,
      span.finish < (entries ++ [e]).length) ∧
    (state.spans ++ closingSpans M e entries.length a).Pairwise fun first second ↦
      first.finish < second.finish := by
  refine ⟨fun span hspan ↦ ?_, List.pairwise_append.mpr ⟨h.finish_sorted, ?_,
    fun first hfirst second hsecond ↦ ?_⟩⟩
  · rw [List.length_append, List.length_singleton]
    rcases List.mem_append.mp hspan with hin | hin
    · exact Nat.lt_succ_of_lt (h.finish_lt span hin)
    · exact (mem_closingSpans.mp hin).2.2.1 ▸ Nat.lt_succ_self _
  · unfold closingSpans
    split_ifs
    · exact List.Pairwise.nil
    · cases M.decode e.f.name a.2.value e.value <;> simp
  · rw [(mem_closingSpans.mp hsecond).2.2.1]
    exact h.finish_lt first hfirst

/-- The last open Invoke of a process is its most recent pending one, so nothing of its process is
pending behind it. -/
theorem Paired.balanced {entries : List OpEntry} {state : Pairing M.Op} {e : OpEntry}
    (h : Paired M entries state) {idx i : ℕ} {inv : OpEntry}
    (hget : state.opened[idx]? = some (i, inv)) (hprocess : inv.process = e.process)
    (hlast : ∀ k b, idx < k → state.opened[k]? = some b → b.2.process ≠ e.process) :
    Pending entries i inv ∧ completionsOf inv.process (entries.drop (i + 1)) =
      invokesOf inv.process (entries.drop (i + 1)) := by
  have hpending := (h.mem_opened i inv).mp (List.mem_of_getElem? hget)
  refine ⟨hpending, hpending.balanced_of_last fun j other hother hsame ↦ ?_⟩
  obtain ⟨k, hk⟩ := List.mem_iff_getElem?.mp ((h.mem_opened j other).mpr hother)
  obtain ⟨hidx, hidxget⟩ := List.getElem?_eq_some_iff.mp hget
  obtain ⟨hklt, hkget⟩ := List.getElem?_eq_some_iff.mp hk
  rcases Nat.lt_trichotomy k idx with hbefore | rfl | hafter
  · have := List.pairwise_iff_getElem.mp h.opened_sorted k idx hklt hidx hbefore
    rw [hidxget, hkget] at this
    exact this.le
  · rw [hget, Option.some.injEq, Prod.mk.injEq] at hk
    exact hk.1.ge
  · exact absurd (hsame.trans hprocess) (hlast k _ hafter hk)

/-- One more entry of a history keeps the pairing exact. -/
theorem Paired.append {entries : List OpEntry} {state : Pairing M.Op} (h : Paired M entries state)
    (e : OpEntry) : Paired M (entries ++ [e]) (pairEntry M state (e, entries.length)) := by
  rcases pairEntry_cases state e entries.length with
    ⟨hinvoke, heq⟩ | ⟨hcompletes, hnone, heq⟩ |
    ⟨hcompletes, idx, ⟨i, inv⟩, hget, hprocess, hlast, heq⟩
  · rw [heq]
    refine ⟨List.pairwise_append.mpr ⟨h.opened_sorted, List.pairwise_singleton _ _, ?_⟩,
      fun i inv ↦ ?_, fun span ↦ ?_, fun span hspan ↦ ?_, h.finish_sorted⟩
    · rintro ⟨i, inv⟩ hin _ hnew
      rw [List.mem_singleton.mp hnew]
      exact (List.getElem?_eq_some_iff.mp ((h.mem_opened i inv).mp hin).entry).1
    · rw [List.mem_append, List.mem_singleton, Prod.mk.injEq, h.mem_opened,
        pending_append_singleton]
      simp [hinvoke]
    · rw [h.mem_spans]
      simp [closes_append_singleton, hinvoke]
    · rw [List.length_append, List.length_singleton]
      exact Nat.lt_succ_of_lt (h.finish_lt span hspan)
  · -- a completion of a process with nothing pending
    have hnot : ∀ i inv, Pending entries i inv → e.process ≠ inv.process := fun i inv hpending ↦
      (hnone (i, inv) ((h.mem_opened i inv).mpr hpending)).symm
    rw [heq]
    refine ⟨h.opened_sorted, fun i inv ↦ ?_, fun span ↦ ?_, fun span hspan ↦ ?_, h.finish_sorted⟩
    · rw [h.mem_opened, pending_append_singleton]
      constructor
      · exact fun hpending ↦ Or.inl ⟨hpending, fun hsame ↦ absurd hsame (hnot i inv hpending)⟩
      · rintro (⟨hpending, -⟩ | ⟨-, -, hinvoke⟩)
        · exact hpending
        · exact absurd hinvoke hcompletes
    · rw [h.mem_spans]
      simp only [closes_append_singleton]
      constructor
      · rintro ⟨inv, c, hc, hrest⟩
        exact ⟨inv, c, Or.inl hc, hrest⟩
      · rintro ⟨inv, c, hc | ⟨-, -, -, hsame, hpending, -⟩, hrest⟩
        · exact ⟨inv, c, hc, hrest⟩
        · exact absurd hsame (hnot _ inv hpending)
    · rw [List.length_append, List.length_singleton]
      exact Nat.lt_succ_of_lt (h.finish_lt span hspan)
  · -- a completion: it closes the most recent pending Invoke of its process
    obtain ⟨hpending, hbalanced⟩ := h.balanced hget hprocess hlast
    have honly : ∀ j other, Pending entries j other → other.process = e.process →
        completionsOf other.process (entries.drop (j + 1)) =
          invokesOf other.process (entries.drop (j + 1)) → j = i ∧ other = inv := by
      intro j other hother hsame hequal
      have hji : j = i := by
        rcases Nat.lt_trichotomy j i with hlt | heq | hgt
        · exact absurd hequal (hother.lt_of_lt hpending hlt (hprocess.trans hsame.symm)).ne
        · exact heq
        · exact absurd hbalanced (hpending.lt_of_lt hother hgt (hsame.trans hprocess.symm)).ne
      subst hji
      exact ⟨rfl, Option.some.inj (hother.entry.symm.trans hpending.entry)⟩
    obtain ⟨hbounded, hsorted⟩ := h.spans_append e (i, inv)
    have hnodup : state.opened.Nodup := h.opened_sorted.imp fun hlt heq ↦ (heq ▸ hlt).ne rfl
    rw [heq]
    refine ⟨h.opened_sorted.sublist (List.eraseIdx_sublist _ _), fun j other ↦ ?_, fun span ↦ ?_,
      hbounded, hsorted⟩
    · classical
      obtain ⟨hlt, hvalue⟩ := List.getElem?_eq_some_iff.mp hget
      rw [← hnodup.erase_getElem idx hlt, hvalue, hnodup.mem_erase_iff, h.mem_opened,
        pending_append_singleton]
      constructor
      · rintro ⟨hne, hother⟩
        refine Or.inl ⟨hother, fun hsame _ ↦ ?_⟩
        refine hother.contained.completionsOf_le.lt_of_ne fun hequal ↦ hne ?_
        obtain ⟨rfl, rfl⟩ := honly j other hother hsame.symm hequal
        rfl
      · rintro (⟨hother, hstrict⟩ | ⟨-, -, hinvoke⟩)
        · refine ⟨fun hsame ↦ ?_, hother⟩
          obtain ⟨rfl, rfl⟩ := Prod.mk.injEq .. ▸ hsame
          exact (hstrict hprocess.symm hcompletes).ne hbalanced
        · exact absurd hinvoke hcompletes
    · rw [List.mem_append, h.mem_spans, mem_closingSpans]
      simp only [closes_append_singleton, or_and_right, exists_or]
      refine or_congr_right ⟨?_, ?_⟩
      · rintro ⟨hfail, hstart, hfinish, hdecode⟩
        exact ⟨inv, e, ⟨hfinish, rfl, hcompletes, hprocess.symm, hstart ▸ hpending,
          hstart ▸ hbalanced⟩, hfail, hdecode⟩
      · rintro ⟨inv', c, ⟨hfinish, rfl, -, hsame, hother, hequal⟩, hfail, hdecode⟩
        obtain ⟨hstart, rfl⟩ := honly span.start inv' hother hsame.symm hequal
        exact ⟨hfail, hstart, hfinish, hdecode⟩

/-- On every history the pairing loop is exact. -/
theorem paired_pairEntries (M : SequentialModel) (entries : List OpEntry) :
    Paired M entries (pairEntries M entries) := by
  induction entries using List.reverseRecOn with
  | nil =>
    refine ⟨List.Pairwise.nil, fun i inv ↦ ?_, fun span ↦ ?_, by simp [pairEntries],
      List.Pairwise.nil⟩
    · simp only [pairEntries, List.zipIdx_nil, List.foldl_nil, List.not_mem_nil, false_iff]
      intro hpending
      simpa using hpending.entry
    · simp only [pairEntries, List.zipIdx_nil, List.foldl_nil, List.not_mem_nil, false_iff]
      rintro ⟨inv, c, hc, -⟩
      simpa using hc.invoke_entry
  | append_singleton entries e ih =>
    rw [pairEntries_append]
    exact ih.append e

end Propsim.Oracle
