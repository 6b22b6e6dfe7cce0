import Mathlib.Algebra.Order.Field.Basic
import Mathlib.Algebra.Order.Field.Rat
import Propsim.Foundation.LinearizationPoints
import Propsim.Interchange.WellFormed
import Propsim.Oracle.Verdicts

/-!
# Moments of effect in a history

The linearizable mode accepts a history exactly when every operation that it orders can be given an
instant between its Invoke and its completion, such that the model answers the operations in the
order of their instants (`linearizable_check_points_iff`). A system whose operations take effect
when they are invoked records histories that it accepts, whenever and however the operations are
completed (`check_isValid_of_takesEffectAtInvoke`).
-/

set_option autoImplicit false
set_option relaxedAutoImplicit false

namespace Propsim.Oracle

open Foundation Interchange Propsim.Core

variable {M : SequentialModel}

/-! ### Instants -/

/-- The linearizable mode accepts a history exactly when each operation that it orders can take
effect at one instant between its Invoke and its completion. Assumes: the entries of each process
alternate. -/
theorem linearizable_check_points_iff (out : RunOutput) (h : Alternates out.history.entries) :
    ((linearizableOracle M).check out).isValid = true ↔
      ∃ point : Operation → ℚ,
        (∀ o ∈ spannedOperations M out.history.entries,
          (o.invoke : ℚ) < point o ∧ point o < o.completion) ∧
        ∃ order, Enumerates (spannedOperations M out.history.entries) order ∧
          (order.Pairwise fun first second ↦ point first < point second) ∧
          Legal (stepAt M out.history.entries) (AnswersAt M out.history.entries) M.init order := by
  have hopens (o : Operation) (ho : o ∈ spannedOperations M out.history.entries) :
      (o.invoke : ℚ) < o.completion := by
    obtain ⟨inv, c, hc, -⟩ := ho
    exact Nat.cast_lt.mpr hc.invoke_lt
  have hapart (o : Operation) (ho : o ∈ spannedOperations M out.history.entries) (o' : Operation)
      (ho' : o' ∈ spannedOperations M out.history.entries) : (o.invoke : ℚ) ≠ o'.completion := by
    obtain ⟨inv, c, hc, -⟩ := ho
    obtain ⟨inv', c', hc', -⟩ := ho'
    exact fun heq ↦ hc.invoke_ne_completion hc' (Nat.cast_injective heq)
  rw [check_isValid_iff _ _ h, ← serializable_iff_exists_points hopens hapart]
  simp [linearizableOracle, RealTime]

/-- The read of the example takes effect before the write that it overlaps with. -/
theorem overlappingRead_points :
    ∃ point : Operation → ℚ,
      (∀ o ∈ spannedOperations registerModel overlappingRead,
        (o.invoke : ℚ) < point o ∧ point o < o.completion) ∧
      ∃ order, Enumerates (spannedOperations registerModel overlappingRead) order ∧
        (order.Pairwise fun first second ↦ point first < point second) ∧
        Legal (stepAt registerModel overlappingRead) (AnswersAt registerModel overlappingRead)
          registerModel.init order :=
  (linearizable_check_points_iff (historyOutput overlappingRead) (by decide)).mp
    (by decide +kernel)

/-! ### Effects at the invocation -/

/-- An operation that the model reads off its invocation alone, with a response that it gives in
every state. -/
def Blind (M : SequentialModel) (f : Function) (value : Value) (op : M.Op) : Prop :=
  ∀ completion, ∃ response, M.decode f.name value completion = some (op, response) ∧
    ∀ state, (M.step state op).2.eq response = true

/-- An invocation takes effect at once. -/
def commit (M : SequentialModel) (effect : Value → Option M.Op) (state : M.State) (e : OpEntry) :
    M.State :=
  if e.kind = .invoke then
    match effect e.value with
    | some op => (M.step state op).1
    | none => state
  else state

/-- The state of the model after the invocations of a history. -/
def committed (M : SequentialModel) (effect : Value → Option M.Op) (entries : List OpEntry) :
    M.State :=
  entries.foldl (commit M effect) M.init

/-- Every operation of a history takes effect at its invocation: an operation that failed had none,
one that completed was answered in the state of its invocation, and one that is open is answered
whatever completes it. -/
structure TakesEffectAtInvoke (M : SequentialModel) (effect : Value → Option M.Op)
    (entries : List OpEntry) : Prop where
  opened : ∀ i inv, OpenAt entries i inv → ∃ op, effect inv.value = some op ∧
    Blind M inv.f inv.value op
  failed : ∀ o inv c, Completes entries o inv c → c.kind = .fail → effect inv.value = none
  answered : ∀ o inv c, Completes entries o inv c → c.kind ≠ .fail → ∃ op response,
    effect inv.value = some op ∧ M.decode c.f.name inv.value c.value = some (op, response) ∧
      (M.step (committed M effect (entries.take o.invoke)) op).2.eq response = true

variable {effect : Value → Option M.Op} {entries : List OpEntry}

@[simp] theorem committed_append_singleton (e : OpEntry) :
    committed M effect (entries ++ [e]) = commit M effect (committed M effect entries) e :=
  List.foldl_append

theorem commit_of_ne_invoke {e : OpEntry} (h : e.kind ≠ .invoke) (state : M.State) :
    commit M effect state e = state := if_neg h

theorem commit_of_invoke {e : OpEntry} (h : e.kind = .invoke) {op : M.Op}
    (heffect : effect e.value = some op) (state : M.State) :
    commit M effect state e = (M.step state op).1 := by
  rw [commit, if_pos h, heffect]

theorem commit_of_none {e : OpEntry} (h : effect e.value = none) (state : M.State) :
    commit M effect state e = state := by
  rw [commit, h, ite_self]

/-- A completion takes no effect of its own. -/
theorem committed_append_pair {inv c : OpEntry} (h : c.kind ≠ .invoke) :
    committed M effect (entries ++ [inv, c]) =
      commit M effect (committed M effect entries) inv := by
  rw [← List.singleton_append, ← List.append_assoc, committed_append_singleton,
    commit_of_ne_invoke h, committed_append_singleton]

namespace TakesEffectAtInvoke

theorem nil : TakesEffectAtInvoke M effect [] := by
  refine ⟨fun i inv hopen ↦ ?_, fun o inv c hc ↦ ?_, fun o inv c hc ↦ ?_⟩
  · simpa using hopen.entry
  · simpa using hc.invoke_entry
  · simpa using hc.invoke_entry

/-- The operations of a history that is continued keep the states of their invocations. -/
theorem take_append {o : Operation} {inv c : OpEntry} (h : Completes entries o inv c)
    (more : List OpEntry) : (entries ++ more).take o.invoke = entries.take o.invoke :=
  List.take_append_of_le_length (List.getElem?_eq_some_iff.mp h.invoke_entry).1.le

/-- An operation is invoked that is answered whatever completes it. -/
theorem invoke (h : TakesEffectAtInvoke M effect entries) {inv : OpEntry}
    (hkind : inv.kind = .invoke) {op : M.Op} (heffect : effect inv.value = some op)
    (hblind : Blind M inv.f inv.value op) : TakesEffectAtInvoke M effect (entries ++ [inv]) := by
  have hold {o : Operation} {inv' c : OpEntry} (hc : Completes (entries ++ [inv]) o inv' c) :
      Completes entries o inv' c :=
    ((completes_append_singleton _ _ _ _ _).mp hc).resolve_right fun hnew ↦ hnew.2.2.1 hkind
  refine ⟨fun i inv' hopen ↦ ?_, fun o inv' c hc ↦ h.failed o inv' c (hold hc),
    fun o inv' c hc hfail ↦ ?_⟩
  · rcases (openAt_append_singleton _ _ _ _).mp hopen with ⟨hopen, -⟩ | ⟨-, rfl, -⟩
    · exact h.opened i inv' hopen
    · exact ⟨op, heffect, hblind⟩
  · rw [take_append (hold hc)]
    exact h.answered o inv' c (hold hc) hfail

/-- An open operation is completed, and does not fail. -/
theorem complete (h : TakesEffectAtInvoke M effect entries) {c : OpEntry} (hkind : c.kind ≠ .invoke)
    (hfail : c.kind ≠ .fail)
    (hf : ∀ i inv, OpenAt entries i inv → c.process = inv.process → c.f = inv.f) :
    TakesEffectAtInvoke M effect (entries ++ [c]) := by
  refine ⟨fun i inv hopen ↦ ?_, fun o inv c' hc hfailed ↦ ?_, fun o inv c' hc hfailed ↦ ?_⟩
  · rcases (openAt_append_singleton _ _ _ _).mp hopen with ⟨hopen, -⟩ | ⟨-, -, hinvoke⟩
    · exact h.opened i inv hopen
    · exact absurd hinvoke hkind
  · rcases (completes_append_singleton _ _ _ _ _).mp hc with hc | ⟨-, rfl, -⟩
    · exact h.failed o inv c' hc hfailed
    · exact absurd hfailed hfail
  · rcases (completes_append_singleton _ _ _ _ _).mp hc with hc | ⟨-, rfl, -, hsame, hopen⟩
    · rw [take_append hc]
      exact h.answered o inv c' hc hfailed
    · obtain ⟨op, heffect, hblind⟩ := h.opened _ _ hopen
      obtain ⟨response, hdecode, hresponse⟩ := hblind c'.value
      rw [hf _ _ hopen hsame]
      exact ⟨op, response, heffect, hdecode, hresponse _⟩

/-- What an invocation that is completed at once adds to the operations of a history. -/
theorem completes_append_pair {inv c : OpEntry} (hinv : inv.kind = .invoke)
    (hsame : c.process = inv.process) {o : Operation} {inv' c' : OpEntry}
    (h : Completes (entries ++ [inv, c]) o inv' c') :
    Completes entries o inv' c' ∨ o.invoke = entries.length ∧ inv' = inv ∧ c' = c := by
  rw [← List.singleton_append, ← List.append_assoc] at h
  rcases (completes_append_singleton _ _ _ _ _).mp h with h | ⟨-, rfl, -, hprocess, hopen⟩
  · rcases (completes_append_singleton _ _ _ _ _).mp h with h | ⟨-, -, hkind, -⟩
    · exact .inl h
    · exact absurd hinv hkind
  · rcases (openAt_append_singleton _ _ _ _).mp hopen with ⟨-, hother⟩ | ⟨heq, rfl, -⟩
    · exact absurd (hsame.symm.trans hprocess) hother
    · exact .inr ⟨heq, rfl, rfl⟩

/-- An operation is invoked and completed at once: it failed and has no effect, or it is answered in
the state that it is invoked in. -/
theorem pair (h : TakesEffectAtInvoke M effect entries) {inv c : OpEntry}
    (hinv : inv.kind = .invoke) (hkind : c.kind ≠ .invoke) (hsame : c.process = inv.process)
    (hfailed : c.kind = .fail → effect inv.value = none)
    (hanswered : c.kind ≠ .fail → ∃ op response, effect inv.value = some op ∧
      M.decode c.f.name inv.value c.value = some (op, response) ∧
        (M.step (committed M effect entries) op).2.eq response = true) :
    TakesEffectAtInvoke M effect (entries ++ [inv, c]) := by
  refine ⟨fun i inv' hopen ↦ ?_, fun o inv' c' hc hfail ↦ ?_, fun o inv' c' hc hfail ↦ ?_⟩
  · rw [← List.singleton_append, ← List.append_assoc] at hopen
    rcases (openAt_append_singleton _ _ _ _).mp hopen with ⟨hopen, hother⟩ | ⟨-, -, hinvoke⟩
    · rcases (openAt_append_singleton _ _ _ _).mp hopen with ⟨hopen, -⟩ | ⟨-, rfl, -⟩
      · exact h.opened i inv' hopen
      · exact absurd hsame hother
    · exact absurd hinvoke hkind
  · rcases completes_append_pair hinv hsame hc with hc | ⟨-, rfl, rfl⟩
    · exact h.failed o inv' c' hc hfail
    · exact hfailed hfail
  · rcases completes_append_pair hinv hsame hc with hc | ⟨heq, rfl, rfl⟩
    · rw [take_append hc]
      exact h.answered o inv' c' hc hfail
    · rw [heq, List.take_left' rfl]
      exact hanswered hfail

/-- The operations that the search orders are those that have an effect. -/
theorem mem_spannedOperations_iff (h : TakesEffectAtInvoke M effect entries) {o : Operation} :
    o ∈ spannedOperations M entries ↔
      ∃ inv c, Completes entries o inv c ∧ (effect inv.value).isSome := by
  constructor
  · rintro ⟨inv, c, hc, hfail, -⟩
    obtain ⟨op, response, heffect, -⟩ := h.answered o inv c hc hfail
    exact ⟨inv, c, hc, by rw [heffect]; rfl⟩
  · rintro ⟨inv, c, hc, hsome⟩
    have hfail : c.kind ≠ .fail := by
      intro hfail
      rw [h.failed o inv c hc hfail] at hsome
      cases hsome
    obtain ⟨op, response, -, hdecode, -⟩ := h.answered o inv c hc hfail
    exact ⟨inv, c, hc, hfail, by rw [hdecode]; rfl⟩

/-- The operations of a well-formed history take effect at the positions of their invocations. -/
theorem takesEffect (h : TakesEffectAtInvoke M effect entries) (hwell : WellFormed entries) :
    TakesEffect (spannedOperations M entries) (stepAt M entries) (AnswersAt M entries) M.init
      Operation.invoke fun k ↦ committed M effect (entries.take k) := by
  refine ⟨rfl, ?_, ?_, ?_, fun k hrests ↦ ?_⟩
  · rintro o ⟨inv, c, hc, -⟩ o' ⟨inv', c', hc', -⟩ heq
    exact hc.unique hc' heq
  · rintro o ⟨inv, c, hc, hfail, -⟩
    obtain ⟨op, response, -, hdecode, hresponse⟩ := h.answered o inv c hc hfail
    exact ⟨op, response, (decodeAt_eq hc).trans hdecode, hresponse⟩
  · rintro o ⟨inv, c, hc, hfail, -⟩
    obtain ⟨op, response, heffect, hdecode, -⟩ := h.answered o inv c hc hfail
    simp only [stepAt, decodeAt_eq hc, hdecode]
    rw [List.take_add_one, hc.invoke_entry, Option.toList_some, committed_append_singleton]
    exact commit_of_invoke hc.invoke_kind heffect _
  · rw [List.take_add_one]
    cases hentry : entries[k]? with
    | none => rw [Option.toList_none, List.append_nil]
    | some e =>
      rw [Option.toList_some, committed_append_singleton]
      by_cases hkind : e.kind = .invoke
      · cases heffect : effect e.value with
        | none => exact commit_of_none heffect _
        | some op =>
          -- a settled history completes the operation, so the position is its point
          obtain ⟨j, c, hc⟩ := (hwell.alternates.openAt_or_completes hentry hkind).resolve_left
            (hwell.not_openAt k e)
          refine absurd rfl (hrests ⟨k, j⟩ (h.mem_spannedOperations_iff.mpr ⟨e, c, hc, ?_⟩))
          rw [heffect]
          rfl
      · exact commit_of_ne_invoke hkind _

end TakesEffectAtInvoke

/-- The linearizable mode accepts a well-formed history whose operations take effect when they are
invoked. -/
theorem check_isValid_of_takesEffectAtInvoke {out : RunOutput}
    (h : TakesEffectAtInvoke M effect out.history.entries)
    (hwell : WellFormed out.history.entries) :
    ((linearizableOracle M).check out).isValid = true := by
  rw [check_isValid_iff _ _ hwell.alternates]
  refine (h.takesEffect hwell).serializable (n := out.history.entries.length) ?_ ?_
  · rintro o ⟨inv, c, hc, -⟩
    exact (List.getElem?_eq_some_iff.mp hc.invoke_entry).1
  · rintro o ⟨inv, c, hc, -⟩ o' - ⟨-, hbefore⟩
    exact hc.invoke_lt.trans hbefore

end Propsim.Oracle
