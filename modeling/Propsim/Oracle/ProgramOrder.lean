import Propsim.Oracle.Verdicts

/-!
# Program order under the sequential consistency checker

Sequential consistency keeps the order in which each process issued its operations. The search of
the sequentially consistent mode drops every order, so it accepts exactly the histories that are
serializable in any order (`sequentiallyConsistent_check_anyOrder`), and it never rejects what the
linearizable mode accepts (`sequentiallyConsistent_check_of_linearizable`). Operations of a process
that look alike can be exchanged, and then the two notions agree; otherwise some model tells them
apart (`sequentiallyConsistent_check_programOrder_iff`).
-/

set_option autoImplicit false
set_option relaxedAutoImplicit false

namespace Propsim.Oracle

open Foundation Interchange Propsim.Core

variable {M : SequentialModel} {entries : List OpEntry}

/-- Some total order of the successful operations keeps the program order of each process and makes
the model answer every one of them with its observed response. -/
def SequentiallyConsistent (M : SequentialModel) (entries : List OpEntry) : Prop :=
  Serializable (operationsOf .ok entries) (ProgramOrder entries) (stepAt M entries)
    (AnswersAt M entries) M.init

/-- Some total order of the successful operations makes the model answer every one of them with its
observed response. -/
def SerializableInAnyOrder (M : SequentialModel) (entries : List OpEntry) : Prop :=
  Serializable (operationsOf .ok entries) (fun _ _ ↦ False) (stepAt M entries)
    (AnswersAt M entries) M.init

/-- Assumes: an alternating history with no indeterminate completion, in which the model decodes
every successful operation. The sequentially consistent mode keeps no order at all. -/
theorem sequentiallyConsistent_check_anyOrder (M : SequentialModel) (out : RunOutput)
    (halternates : Alternates out.history.entries)
    (hdefinite : ∀ e ∈ out.history.entries, e.kind ≠ .info)
    (hdecodes : Decodes M .ok out.history.entries) :
    ((sequentiallyConsistentOracle M).check out).isValid = true ↔
      SerializableInAnyOrder M out.history.entries := by
  have hinfo := operationsOf_eq_empty hdefinite
  have hspanned := spannedOperations_eq hdecodes
    (fun o ho ↦ absurd (hinfo ▸ ho) (Set.notMem_empty o))
  rw [check_isValid_iff _ _ halternates, hspanned, hinfo, Set.union_empty]
  simp [sequentiallyConsistentOracle, SerializableInAnyOrder]

/-- The weaker mode accepts what the stronger one accepts, on every history, well formed or not: an
order of the spans that keeps their real-time precedence is an order of the spans. -/
theorem sequentiallyConsistent_check_of_linearizable (M : SequentialModel) (out : RunOutput)
    (h : ((linearizableOracle M).check out).isValid = true) :
    ((sequentiallyConsistentOracle M).check out).isValid = true := by
  rw [check_isValid_closed_iff] at h ⊢
  refine h.mono fun first second hprecedes ↦ ?_
  obtain ⟨himpossible, -⟩ := hprecedes
  cases himpossible

/-- The sequentially consistent mode accepts a linearizable history with overlapping operations. -/
theorem overlappingRead_sequentiallyConsistent :
    ((sequentiallyConsistentOracle registerModel).check (historyOutput overlappingRead)).isValid =
      true :=
  sequentiallyConsistent_check_of_linearizable registerModel (historyOutput overlappingRead)
    (by decide +kernel)

/-- What a model can see of an operation: its function, its argument and its result. -/
def visible (entries : List OpEntry) (o : Operation) : Option (Function × Value × Value) :=
  match entries[o.invoke]?, entries[o.completion]? with
  | some inv, some c => some (c.f, inv.value, c.value)
  | _, _ => none

theorem visible_eq {o : Operation} {inv c : OpEntry} (h : Completes entries o inv c) :
    visible entries o = some (c.f, inv.value, c.value) := by
  simp [visible, h.invoke_entry, h.completion_entry]

/-- The decoding of an operation depends only on what is visible of it. -/
theorem decodeAt_congr {o o' : Operation} (h : visible entries o = visible entries o')
    (ho : o ∈ operationsOf .ok entries) (ho' : o' ∈ operationsOf .ok entries) :
    decodeAt M entries o = decodeAt M entries o' := by
  obtain ⟨inv, c, hc, -⟩ := ho
  obtain ⟨inv', c', hc', -⟩ := ho'
  rw [visible_eq hc, visible_eq hc', Option.some.injEq, Prod.mk.injEq, Prod.mk.injEq] at h
  rw [decodeAt_eq hc, decodeAt_eq hc', h.1, h.2.1, h.2.2]

/-- The process of an operation. -/
def processAt (entries : List OpEntry) (o : Operation) : Option ProcessId :=
  entries[o.invoke]?.map (·.process)

/-- The successful operations of each process look alike to every model. -/
def Interchangeable (entries : List OpEntry) : Prop :=
  ∀ o ∈ operationsOf .ok entries, ∀ o' ∈ operationsOf .ok entries,
    processAt entries o = processAt entries o' → visible entries o = visible entries o'

/-- The order of the Invokes of a process is that of their completions. -/
theorem ProgramOrder.completion_lt {kind : OpKind} {o o' : Operation}
    (ho : o ∈ operationsOf kind entries) (ho' : o' ∈ operationsOf kind entries)
    (h : ProgramOrder entries o o') : o.completion < o'.completion := by
  obtain ⟨inv, c, hc, -⟩ := ho
  obtain ⟨inv', c', hc', -⟩ := ho'
  obtain ⟨hlt, a, b, ha, hb, hprocess⟩ := h
  obtain rfl : inv = a := Option.some.inj (hc.invoke_entry.symm.trans ha)
  obtain rfl : inv' = b := Option.some.inj (hc'.invoke_entry.symm.trans hb)
  have hafter : o.completion < o'.invoke := by
    rcases Nat.lt_trichotomy o.completion o'.invoke with hbefore | hsame | hinside
    · exact hbefore
    · have heq : c = inv' :=
        Option.some.inj ((hsame ▸ hc.completion_entry).symm.trans hc'.invoke_entry)
      exact absurd (heq ▸ hc'.invoke_kind) hc.completion_kind
    · exact absurd hprocess.symm (hc.adjacent _ _ hlt hinside hc'.invoke_entry)
  have := hc'.invoke_lt
  omega

theorem ProgramOrder.processAt_eq {o o' : Operation} (h : ProgramOrder entries o o') :
    processAt entries o = processAt entries o' := by
  obtain ⟨-, a, b, ha, hb, hprocess⟩ := h
  simp [processAt, ha, hb, hprocess]

/-- Operations of one process that look alike can be put into program order. -/
theorem SerializableInAnyOrder.sequentiallyConsistent (halike : Interchangeable entries)
    (h : SerializableInAnyOrder M entries) : SequentiallyConsistent M entries := by
  classical
  obtain ⟨order, henum, -, hlegal⟩ := h
  obtain ⟨canonical, hcanonical, hsorted⟩ := exists_enumeration .ok entries
  have hperm : order.Perm canonical :=
    (List.perm_ext_iff_of_nodup henum.1 hcanonical.1).mpr fun o ↦
      (henum.2 o).trans (hcanonical.2 o).symm
  obtain ⟨refill, hrefill, hcolors, hclasses⟩ :=
    exists_refill (processAt entries) canonical order (hperm.map _)
  have hin (o : Operation) (ho : o ∈ refill) : o ∈ operationsOf .ok entries :=
    (hcanonical.2 o).mp (hrefill.subset ho)
  refine ⟨refill, ⟨hrefill.nodup_iff.mpr hcanonical.1, fun o ↦
    (hrefill.mem_iff).trans (hcanonical.2 o)⟩, ?_, ?_⟩
  · have hordered : refill.Pairwise fun first second ↦
        processAt entries first = processAt entries second →
          first.completion ≤ second.completion := by
      refine pairwise_of_filter_pairwise fun c ↦ ?_
      rw [hclasses c]
      exact hsorted.sublist List.filter_sublist
    refine hordered.imp_of_mem fun hfirst hsecond hle hbefore ↦ ?_
    have hlt := hbefore.completion_lt (hin _ hsecond) (hin _ hfirst)
    have := hle hbefore.processAt_eq.symm
    omega
  · -- one operation of each process stands for all of them
    have hexists (p : Option ProcessId) : ∃ o : Operation,
        (∃ o' ∈ operationsOf .ok entries, processAt entries o' = p) →
          o ∈ operationsOf .ok entries ∧ processAt entries o = p := by
      by_cases hp : ∃ o' ∈ operationsOf .ok entries, processAt entries o' = p
      · obtain ⟨o', ho'⟩ := hp
        exact ⟨o', fun _ ↦ ho'⟩
      · exact ⟨⟨0, 0⟩, fun h ↦ absurd h hp⟩
    choose representative hrepresentative using hexists
    have hdecode (o : Operation) (ho : o ∈ operationsOf .ok entries) :
        decodeAt M entries o = decodeAt M entries (representative (processAt entries o)) := by
      obtain ⟨hmem, hprocess⟩ := hrepresentative (processAt entries o) ⟨o, ho, rfl⟩
      exact decodeAt_congr (halike o ho _ hmem hprocess.symm) ho hmem
    have hcolored (l : List Operation) (hl : ∀ o ∈ l, o ∈ operationsOf .ok entries) :
        Legal (stepAt M entries) (AnswersAt M entries) M.init l ↔
          Legal (fun s p ↦ stepAt M entries s (representative p))
            (fun s p ↦ AnswersAt M entries s (representative p)) M.init
            (l.map (processAt entries)) := by
      rw [legal_map]
      refine legal_congr (fun o ho state ↦ ?_) (fun o ho state ↦ ?_) _
      · simp only [stepAt, hdecode o (hl o ho)]
      · simp only [AnswersAt, hdecode o (hl o ho)]
    rw [hcolored refill hin, hcolors, ← hcolored order fun o ho ↦ (henum.2 o).mp ho]
    exact hlegal

/-! ### A history shows the difference to some model -/

/-- A model that answers correctly as long as no favoured operation comes after another one. -/
def favouringModel (favoured : Function → Value → Value → Bool) : SequentialModel where
  State := Bool
  Op := Bool
  init := false
  step passed isFavoured :=
    (passed || !isFavoured, ⟨if passed && isFavoured then .bool true else .nil⟩)
  decode f valueInvoke valueComplete := some (favoured ⟨f⟩ valueInvoke valueComplete, ⟨.nil⟩)

variable {favoured : Function → Value → Value → Bool}

theorem decodes_favouringModel (kind : OpKind) :
    Decodes (favouringModel favoured) kind entries :=
  decodes_of_forall_mem fun _ _ _ _ _ ↦ rfl

/-- An operation of the history is favoured. -/
def favouredAt (favoured : Function → Value → Value → Bool) (entries : List OpEntry)
    (o : Operation) : Bool :=
  (visible entries o).any fun seen ↦ favoured seen.1 seen.2.1 seen.2.2

theorem decodeAt_favouringModel {o : Operation} (ho : o ∈ operationsOf .ok entries) :
    decodeAt (favouringModel favoured) entries o =
      some (favouredAt favoured entries o, ⟨.nil⟩) := by
  obtain ⟨inv, c, hc, -⟩ := ho
  rw [decodeAt_eq hc, favouredAt, visible_eq hc]
  rfl

theorem stepAt_favouringModel {o : Operation} (ho : o ∈ operationsOf .ok entries)
    (passed : Bool) :
    stepAt (favouringModel favoured) entries passed o =
      (passed || !favouredAt favoured entries o) := by
  simp only [stepAt, decodeAt_favouringModel ho]
  rfl

theorem answersAt_favouringModel {o : Operation} (ho : o ∈ operationsOf .ok entries)
    (passed : Bool) :
    AnswersAt (favouringModel favoured) entries passed o ↔
      (passed = true → favouredAt favoured entries o = false) := by
  have hresponse (isFavoured : Bool) :
      (((favouringModel favoured).step passed isFavoured).2.eq ⟨.nil⟩ = true) ↔
        (passed = true → isFavoured = false) := by
    change (Response.eq ⟨if passed && isFavoured then .bool true else .nil⟩ ⟨.nil⟩ = true) ↔ _
    cases passed <;> cases isFavoured <;> simp [Response.eq, Value.eq]
  rw [← hresponse]
  constructor
  · rintro ⟨op, response, hsome, heq⟩
    rw [decodeAt_favouringModel ho] at hsome
    obtain ⟨rfl, rfl⟩ := Prod.mk.inj (Option.some.inj hsome)
    exact heq
  · exact fun heq ↦ ⟨_, _, decodeAt_favouringModel ho, heq⟩

/-- An order is legal for the favouring model exactly when the favoured operations come first. -/
theorem legal_favouringModel {order : List Operation}
    (horder : ∀ o ∈ order, o ∈ operationsOf .ok entries) (passed : Bool) :
    Legal (stepAt (favouringModel favoured) entries) (AnswersAt (favouringModel favoured) entries)
        passed order ↔
      (passed = true → ∀ o ∈ order, favouredAt favoured entries o = false) ∧
        order.Pairwise fun first second ↦
          favouredAt favoured entries second = true →
            favouredAt favoured entries first = true := by
  induction order generalizing passed with
  | nil => exact iff_of_true trivial ⟨fun _ _ h ↦ by simp at h, List.Pairwise.nil⟩
  | cons o rest ih =>
    have ho := horder o (by simp)
    have hrest : Legal (stepAt (favouringModel favoured) entries)
        (AnswersAt (favouringModel favoured) entries)
        (stepAt (favouringModel favoured) entries passed o) rest ↔
          ((passed || !favouredAt favoured entries o) = true →
            ∀ o ∈ rest, favouredAt favoured entries o = false) ∧
          rest.Pairwise fun first second ↦
            favouredAt favoured entries second = true →
              favouredAt favoured entries first = true := by
      rw [stepAt_favouringModel ho]
      exact ih (fun o' ho' ↦ horder o' (List.mem_cons_of_mem _ ho')) _
    refine (and_congr (answersAt_favouringModel ho passed) hrest).trans ?_
    rw [List.pairwise_cons]
    cases passed <;> cases hfavoured : favouredAt favoured entries o <;> simp [hfavoured]

/-- Two operations of a process that look different make the checker accept an explanation out of
program order under some model that decodes every operation. -/
theorem exists_accepted_reordering (hdifferent : ¬ Interchangeable entries) :
    ∃ favoured, SerializableInAnyOrder (favouringModel favoured) entries ∧
      ¬ SequentiallyConsistent (favouringModel favoured) entries := by
  classical
  -- name the two operations by the order in which they were issued
  obtain ⟨first, second, hfirst, hsecond, hbefore, hne⟩ :
      ∃ first second : Operation, first ∈ operationsOf .ok entries ∧
        second ∈ operationsOf .ok entries ∧ ProgramOrder entries first second ∧
          visible entries first ≠ visible entries second := by
    simp only [Interchangeable, not_forall] at hdifferent
    obtain ⟨o, ho, o', ho', hprocess, hne⟩ := hdifferent
    obtain ⟨inv, c, hc, hok⟩ := ho
    obtain ⟨inv', c', hc', hok'⟩ := ho'
    have hsame : inv.process = inv'.process := by
      simpa [processAt, hc.invoke_entry, hc'.invoke_entry] using hprocess
    rcases Nat.lt_trichotomy o.invoke o'.invoke with hlt | heq | hgt
    · exact ⟨o, o', ⟨inv, c, hc, hok⟩, ⟨inv', c', hc', hok'⟩,
        ⟨hlt, inv, inv', hc.invoke_entry, hc'.invoke_entry, hsame⟩, hne⟩
    · exact absurd (congrArg (visible entries) (hc.unique hc' heq)) hne
    · exact ⟨o', o, ⟨inv', c', hc', hok'⟩, ⟨inv, c, hc, hok⟩,
        ⟨hgt, inv', inv, hc'.invoke_entry, hc.invoke_entry, hsame.symm⟩, Ne.symm hne⟩
  let favoured : Function → Value → Value → Bool := fun f argument result ↦
    decide (visible entries second = some (f, argument, result))
  have hfavoured (o : Operation) (ho : o ∈ operationsOf .ok entries) :
      favouredAt favoured entries o = true ↔ visible entries second = visible entries o := by
    obtain ⟨inv, c, hc, -⟩ := ho
    simp [favouredAt, visible_eq hc, favoured]
  refine ⟨favoured, ?_, ?_⟩
  · obtain ⟨order, henum, -⟩ := exists_enumeration .ok entries
    have hin (o : Operation) (ho : o ∈ order) : o ∈ operationsOf .ok entries := (henum.2 o).mp ho
    let sorted := (order.filter fun o ↦ favouredAt favoured entries o) ++
      order.filter fun o ↦ !favouredAt favoured entries o
    have hperm : sorted.Perm order := List.filter_append_perm _ order
    refine ⟨sorted, ⟨hperm.nodup_iff.mpr henum.1, fun o ↦ hperm.mem_iff.trans (henum.2 o)⟩,
      List.pairwise_of_forall fun _ _ ↦ not_false, ?_⟩
    refine (legal_favouringModel (fun o ho ↦ hin o (hperm.subset ho)) false).mpr
      ⟨by simp, List.pairwise_append.mpr ⟨?_, ?_, ?_⟩⟩
    · exact List.Pairwise.imp_of_mem (fun ha _ _ _ ↦ (List.mem_filter.mp ha).2)
        (List.pairwise_of_forall fun _ _ ↦ trivial)
    · refine List.Pairwise.imp_of_mem (fun _ hb _ hcontra ↦ ?_)
        (List.pairwise_of_forall fun _ _ ↦ trivial)
      simp [hcontra] at hb
    · exact fun a ha _ _ _ ↦ (List.mem_filter.mp ha).2
  · rintro ⟨order, henum, hrespects, hlegal⟩
    have hordered := ((legal_favouringModel (fun o ho ↦ (henum.2 o).mp ho) false).mp hlegal).2
    obtain ⟨i, hi, hgeti⟩ := List.mem_iff_getElem.mp ((henum.2 first).mpr hfirst)
    obtain ⟨j, hj, hgetj⟩ := List.mem_iff_getElem.mp ((henum.2 second).mpr hsecond)
    -- program order puts the other operation first, the model puts the favoured one first
    rcases Nat.lt_trichotomy i j with hlt | heq | hgt
    · have hmodel := List.pairwise_iff_getElem.mp hordered i j hi hj hlt
      rw [hgeti, hgetj] at hmodel
      exact hne ((hfavoured first hfirst).mp
        (hmodel ((hfavoured second hsecond).mpr rfl))).symm
    · subst heq
      exact hne (congrArg (visible entries) (hgeti.symm.trans hgetj))
    · have hprogram := List.pairwise_iff_getElem.mp hrespects j i hj hi hgt
      rw [hgeti, hgetj] at hprogram
      exact hprogram hbefore

/-- When the verdict of the sequentially consistent mode is the intended one. For one model that
decodes every successful operation, it is so exactly when an explanation in any order implies one
in program order. For all such models, it is so exactly when the successful operations of each
process agree in function, argument and result. Assumes: an alternating history with no
indeterminate completion. -/
theorem sequentiallyConsistent_check_programOrder_iff (entries : List OpEntry)
    (halternates : Alternates entries) (hdefinite : ∀ e ∈ entries, e.kind ≠ .info) :
    (∀ (M : SequentialModel) (out : RunOutput), out.history.entries = entries →
      Decodes M .ok entries →
        ((((sequentiallyConsistentOracle M).check out).isValid = true ↔
            SequentiallyConsistent M entries) ↔
          (SerializableInAnyOrder M entries → SequentiallyConsistent M entries))) ∧
    ((∀ (M : SequentialModel) (out : RunOutput), out.history.entries = entries →
      Decodes M .ok entries →
        (((sequentiallyConsistentOracle M).check out).isValid = true ↔
          SequentiallyConsistent M entries)) ↔
      Interchangeable entries) := by
  have hverdict (M : SequentialModel) (out : RunOutput) (hout : out.history.entries = entries)
      (hdecodes : Decodes M .ok entries) :
      ((((sequentiallyConsistentOracle M).check out).isValid = true ↔
          SequentiallyConsistent M entries) ↔
        (SerializableInAnyOrder M entries → SequentiallyConsistent M entries)) := by
    subst hout
    rw [sequentiallyConsistent_check_anyOrder M out halternates hdefinite hdecodes]
    exact ⟨Iff.mp, fun himplies ↦
      ⟨himplies, Serializable.mono fun _ _ himpossible ↦ himpossible.elim⟩⟩
  refine ⟨hverdict, fun hagree ↦ ?_, fun halike M out hout hdecodes ↦
    (hverdict M out hout hdecodes).mpr fun h ↦ h.sequentiallyConsistent halike⟩
  by_contra hdifferent
  obtain ⟨favoured, haccepted, hreordered⟩ := exists_accepted_reordering hdifferent
  have hdecodes : Decodes (favouringModel favoured) .ok entries := decodes_favouringModel .ok
  exact hreordered ((hverdict _ (historyOutput entries) rfl hdecodes).mp
    (hagree _ (historyOutput entries) rfl hdecodes) haccepted)

/-- A process that reads the old value after its own write. -/
def forgottenWrite : List OpEntry :=
  [registerEntry 0 .invoke 0 "write" 1, registerEntry 1 .ok 0 "write" 1,
    registerEntry 2 .invoke 0 "read" 0, registerEntry 3 .ok 0 "read" 0]

theorem operationsOf_ok_forgottenWrite :
    operationsOf .ok forgottenWrite = {o | o ∈ [(⟨0, 1⟩ : Operation), ⟨2, 3⟩]} :=
  operationsOf_eq (by decide) (by decide)

/-- At the forgotten write the two notions differ for some model that decodes every operation. -/
theorem forgottenWrite_disagreement :
    ((((sequentiallyConsistentOracle registerModel).check (historyOutput forgottenWrite)).isValid =
        true ↔ SequentiallyConsistent registerModel forgottenWrite) ↔
      (SerializableInAnyOrder registerModel forgottenWrite →
        SequentiallyConsistent registerModel forgottenWrite)) ∧
    ¬ ∀ (M : SequentialModel) (out : RunOutput), out.history.entries = forgottenWrite →
      Decodes M .ok forgottenWrite →
        (((sequentiallyConsistentOracle M).check out).isValid = true ↔
          SequentiallyConsistent M forgottenWrite) := by
  have hiff := sequentiallyConsistent_check_programOrder_iff forgottenWrite (by decide) (by decide)
  refine ⟨hiff.1 registerModel (historyOutput forgottenWrite) rfl
    (decodes_of_forall_mem (by decide)), fun hall ↦ ?_⟩
  have halike := hiff.2.mp hall ⟨0, 1⟩ (by decide) ⟨2, 3⟩ (by decide) rfl
  simp [visible, forgottenWrite, registerEntry] at halike

/-- The checker accepts the forgotten write, which no register explains in program order. -/
theorem forgottenWrite_accepted :
    Alternates forgottenWrite ∧ (∀ e ∈ forgottenWrite, e.kind ≠ .info) ∧
      Decodes registerModel .ok forgottenWrite ∧
      ¬ (((sequentiallyConsistentOracle registerModel).check
          (historyOutput forgottenWrite)).isValid = true ↔
        SequentiallyConsistent registerModel forgottenWrite) := by
  refine ⟨by decide, by decide, decodes_of_forall_mem (by decide), fun hiff ↦ ?_⟩
  have hexplained : SequentiallyConsistent registerModel forgottenWrite :=
    hiff.mp (by decide +kernel)
  -- the write comes first, and the read after it cannot return the old value
  rw [SequentiallyConsistent, operationsOf_ok_forgottenWrite, serializable_iff_exists_first]
    at hexplained
  obtain hnone | ⟨first, hfirst, hearliest, -, hrest⟩ := hexplained
  · exact absurd (hnone ▸ (by simp : (⟨0, 1⟩ : Operation) ∈
      {o | o ∈ [(⟨0, 1⟩ : Operation), ⟨2, 3⟩]})) (Set.notMem_empty _)
  · have hwrite : first = ⟨0, 1⟩ := by
      by_contra hne
      have hread : first = ⟨2, 3⟩ := by simpa [hne] using hfirst
      subst hread
      exact hearliest ⟨0, 1⟩ (by simp) (by decide) ⟨by decide, _, _, rfl, rfl, rfl⟩
    subst hwrite
    obtain hnone | ⟨second, hsecond, -, hanswer, -⟩ := serializable_iff_exists_first.mp hrest
    · exact absurd (hnone ▸ (by simp : (⟨2, 3⟩ : Operation) ∈
        {o | o ∈ [(⟨0, 1⟩ : Operation), ⟨2, 3⟩]} \ {(⟨0, 1⟩ : Operation)})) (Set.notMem_empty _)
    · have hread : second = ⟨2, 3⟩ := by
        have := hsecond.2
        simp_all
      subst hread
      obtain ⟨op, response, hdecode, hanswer⟩ := hanswer
      obtain ⟨rfl, rfl⟩ := Prod.mk.inj (Option.some.inj hdecode)
      exact absurd hanswer (by decide +kernel)

end Propsim.Oracle
