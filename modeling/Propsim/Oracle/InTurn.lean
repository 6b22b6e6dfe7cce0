import Propsim.Oracle.Verdicts

/-!
# Histories answered in turn

A history is answered in turn when each operation completes before the next one is invoked, and
every operation that did not fail decodes to the response of the model in the state that the ones
before it left. The pairing loop lists the operations of such a history in their own order
(`AnsweredInTurn.paired`), which is an order that the search accepts
(`check_isValid_of_answeredInTurn`).
-/

set_option autoImplicit false
set_option relaxedAutoImplicit false

namespace Propsim.Oracle

open Foundation Interchange Propsim.Core

variable {M : SequentialModel}

/-- A history that the model answers in turn, and the state that it leaves. -/
inductive AnsweredInTurn (M : SequentialModel) : M.State → List OpEntry → Prop
  | start : AnsweredInTurn M M.init []
  /-- An operation that fails at once. -/
  | failed {state : M.State} {entries : List OpEntry} {inv c : OpEntry}
      (h : AnsweredInTurn M state entries) (hinv : inv.kind = .invoke) (hc : c.kind = .fail)
      (hsame : c.process = inv.process) : AnsweredInTurn M state (entries ++ [inv, c])
  /-- An operation that completes with the response of the model. -/
  | answered {state : M.State} {entries : List OpEntry} {inv c : OpEntry} {op : M.Op}
      (h : AnsweredInTurn M state entries) (hinv : inv.kind = .invoke) (hc : c.kind = .ok)
      (hsame : c.process = inv.process)
      (hdecode : M.decode c.f.name inv.value c.value = some (op, (M.step state op).2)) :
      AnsweredInTurn M (M.step state op).1 (entries ++ [inv, c])

/-- The spans of a history that is answered in turn: none is open, they are apart, and the model
answers them in their own order. -/
structure PairedInTurn (M : SequentialModel) (state : M.State) (length : ℕ)
    (pairing : Pairing M.Op) : Prop where
  opened : pairing.opened = []
  ordered : ∀ span ∈ pairing.spans, span.start ≤ span.finish
  finished : ∀ span ∈ pairing.spans, span.finish < length
  apart : pairing.spans.Pairwise fun first second ↦ first.finish < second.start
  legal : Legal (fun state (span : Span M.Op) ↦ (M.step state span.op).1)
    (fun state span ↦ (M.step state span.op).2.eq span.response = true) M.init pairing.spans
  state_eq : pairing.spans.foldl (fun state span ↦ (M.step state span.op).1) M.init = state

/-- An Invoke and its completion pair up when no operation is open. -/
theorem pairEntries_pair {entries : List OpEntry} {inv c : OpEntry} (hinv : inv.kind = .invoke)
    (hc : c.kind ≠ .invoke) (hsame : c.process = inv.process)
    (hopened : (pairEntries M entries).opened = []) :
    pairEntries M (entries ++ [inv, c]) = ⟨[], (pairEntries M entries).spans ++
      closingSpans M c (entries.length + 1) (entries.length, inv)⟩ := by
  have hsplit : entries ++ [inv, c] = entries ++ [inv] ++ [c] := by
    rw [List.append_assoc, List.singleton_append]
  have hfirst : pairEntries M (entries ++ [inv]) =
      ⟨[(entries.length, inv)], (pairEntries M entries).spans⟩ := by
    rw [pairEntries_append]
    simp [pairEntry, hinv, hopened]
  rw [hsplit, pairEntries_append, hfirst, List.length_append, List.length_singleton]
  rcases pairEntry_cases ⟨[(entries.length, inv)], (pairEntries M entries).spans⟩ c
    (entries.length + 1) with ⟨hkind, -⟩ | ⟨-, hnone, -⟩ | ⟨-, idx, opened, hget, -, -, heq⟩
  · exact absurd hkind hc
  · exact absurd hsame.symm (hnone (entries.length, inv) (List.mem_singleton_self _))
  · rw [heq]
    obtain ⟨hidx, rfl⟩ := List.getElem?_eq_some_iff.mp hget
    obtain rfl : idx = 0 := Nat.lt_one_iff.mp hidx
    rfl

/-- The spans of a history that is answered in turn, by induction on its operations. Assumes: the
responses of the model are equal to themselves. -/
theorem AnsweredInTurn.paired
    (hrefl : ∀ state op, (M.step state op).2.eq (M.step state op).2 = true)
    {state : M.State} {entries : List OpEntry} (h : AnsweredInTurn M state entries) :
    PairedInTurn M state entries.length (pairEntries M entries) := by
  induction h with
  | start =>
    refine ⟨rfl, ?_, ?_, List.Pairwise.nil, trivial, rfl⟩
    · intro span hspan
      cases hspan
    · intro span hspan
      cases hspan
  | @failed state entries inv c _ hinv hc hsame ih =>
    have hspans : closingSpans M c (entries.length + 1) (entries.length, inv) = [] := by
      rw [closingSpans, if_pos hc]
    rw [pairEntries_pair hinv (by simp [hc]) hsame ih.opened, hspans, List.append_nil]
    refine ⟨rfl, ih.ordered, fun span hspan ↦ ?_, ih.apart, ih.legal, ih.state_eq⟩
    exact (ih.finished span hspan).trans_le (by simp)
  | @answered state entries inv c op _ hinv hc hsame hdecode ih =>
    have hspans : closingSpans M c (entries.length + 1) (entries.length, inv) =
        [⟨op, (M.step state op).2, entries.length, entries.length + 1⟩] := by
      rw [closingSpans, if_neg (by simp [hc]), hdecode]
      rfl
    rw [pairEntries_pair hinv (by simp [hc]) hsame ih.opened, hspans, List.length_append]
    refine ⟨rfl, fun span hspan ↦ ?_, fun span hspan ↦ ?_, ?_, ?_, ?_⟩
    · rcases List.mem_append.mp hspan with hspan | hspan
      · exact ih.ordered span hspan
      · rw [List.mem_singleton.mp hspan]
        exact Nat.le_succ _
    · rcases List.mem_append.mp hspan with hspan | hspan
      · exact (ih.finished span hspan).trans_le (Nat.le_add_right _ _)
      · rw [List.mem_singleton.mp hspan]
        exact Nat.lt_succ_self _
    · refine List.pairwise_append.mpr ⟨ih.apart, List.pairwise_singleton _ _, ?_⟩
      intro first hfirst second hsecond
      rw [List.mem_singleton.mp hsecond]
      exact ih.finished first hfirst
    · rw [legal_append, ih.state_eq]
      exact ⟨ih.legal, hrefl state op, trivial⟩
    · rw [List.foldl_append, ih.state_eq]
      rfl

/-- A list of spans that the model answers is legal by their indices. The induction is on the spans
that are left. -/
theorem legal_range' {before rest : List (Span M.Op)} {state : M.State}
    (h : Legal (fun state (span : Span M.Op) ↦ (M.step state span.op).1)
      (fun state span ↦ (M.step state span.op).2.eq span.response = true) state rest) :
    Legal (stepSpan M (before ++ rest)) (AnswersSpan M (before ++ rest)) state
      (List.range' before.length rest.length) := by
  induction rest generalizing before state with
  | nil => trivial
  | cons span rest ih =>
    have hget : (before ++ span :: rest)[before.length]? = some span := by
      rw [List.getElem?_append_right le_rfl, Nat.sub_self]
      rfl
    have hstep : stepSpan M (before ++ span :: rest) state before.length =
        (M.step state span.op).1 := by
      simp only [stepSpan, hget]
    have hrest := @ih (before ++ [span]) _ h.2
    rw [List.append_assoc, List.singleton_append, List.length_append,
      List.length_singleton] at hrest
    rw [List.length_cons, List.range'_succ, legal_cons, hstep]
    exact ⟨⟨span, hget, h.1⟩, hrest⟩

/-- The linearizable mode accepts a history that is answered in turn. Assumes: the responses of the
model are equal to themselves. -/
theorem check_isValid_of_answeredInTurn
    (hrefl : ∀ state op, (M.step state op).2.eq (M.step state op).2 = true) {state : M.State}
    {out : RunOutput} (h : AnsweredInTurn M state out.history.entries) :
    ((linearizableOracle M).check out).isValid = true := by
  have hpaired := h.paired hrefl
  have hlegal := @legal_range' M [] _ _ hpaired.legal
  rw [List.nil_append, List.length_nil, ← List.range_eq_range'] at hlegal
  rw [LinearizabilityOracle.check_isValid, search_iff _ hpaired.ordered]
  refine ⟨List.range _, ⟨List.nodup_range, fun i ↦ List.mem_range⟩, ?_, hlegal⟩
  refine List.pairwise_lt_range.imp fun {i j} hlt ↦ ?_
  rintro ⟨-, first, second, hfirst, hsecond, hbefore⟩
  obtain ⟨hj, rfl⟩ := List.getElem?_eq_some_iff.mp hfirst
  obtain ⟨hi, rfl⟩ := List.getElem?_eq_some_iff.mp hsecond
  have hapart := List.pairwise_iff_getElem.mp hpaired.apart i j hi hj hlt
  have hi' := hpaired.ordered _ (List.getElem_mem hi)
  have hj' := hpaired.ordered _ (List.getElem_mem hj)
  omega

end Propsim.Oracle
