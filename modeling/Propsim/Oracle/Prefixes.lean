import Propsim.Oracle.Verdicts

/-!
# Prefixes of an accepted history

Cutting a history leaves the operations that complete after the cut open, and the checker leaves
open operations out of the order it searches for. When one of them had to take effect before an
operation that completed inside the prefix, the prefix is rejected although the history is accepted
(`straddlingWrite_prefix_rejected`). What holds of every cut is prefix closure up to completion: the
prefix is accepted together with the completions of some of its open operations, all of which
overlap the prefix (`linearizable_check_completedPrefix`).
-/

set_option autoImplicit false
set_option relaxedAutoImplicit false

namespace Propsim.Oracle

open Foundation Interchange Propsim.Core

variable {M : SequentialModel}

/-! ### The operations of a prefix -/

theorem getElem?_take_eq_some {entries : List OpEntry} {n i : ℕ} {e : OpEntry} :
    (entries.take n)[i]? = some e ↔ i < n ∧ entries[i]? = some e := by
  rw [List.getElem?_take]
  split_ifs with hlt
  · exact (and_iff_right hlt).symm
  · simp [hlt]

/-- The operations of a prefix are those that complete in it. -/
theorem completes_take {entries : List OpEntry} {n : ℕ} {o : Operation} {inv c : OpEntry} :
    Completes (entries.take n) o inv c ↔ Completes entries o inv c ∧ o.completion < n := by
  constructor
  · rintro ⟨hinv, hc, hik, hck, hp, hlt, hadjacent⟩
    obtain ⟨-, hinv⟩ := getElem?_take_eq_some.mp hinv
    obtain ⟨hbound, hc⟩ := getElem?_take_eq_some.mp hc
    refine ⟨⟨hinv, hc, hik, hck, hp, hlt, fun k e h1 h2 he ↦ ?_⟩, hbound⟩
    exact hadjacent k e h1 h2 (getElem?_take_eq_some.mpr ⟨h2.trans hbound, he⟩)
  · rintro ⟨⟨hinv, hc, hik, hck, hp, hlt, hadjacent⟩, hbound⟩
    refine ⟨getElem?_take_eq_some.mpr ⟨hlt.trans hbound, hinv⟩,
      getElem?_take_eq_some.mpr ⟨hbound, hc⟩, hik, hck, hp, hlt, fun k e h1 h2 he ↦ ?_⟩
    exact hadjacent k e h1 h2 (getElem?_take_eq_some.mp he).2

/-- A prefix of an alternating history alternates. -/
theorem alternates_take {entries : List OpEntry} (h : Alternates entries) (n : ℕ) :
    Alternates (entries.take n) := by
  intro p k e he
  refine h p k e ?_
  have hpre : project p (entries.take n) <+: project p entries :=
    (List.take_prefix n entries).filter _
  obtain ⟨rest, hrest⟩ := hpre
  rw [← hrest, List.getElem?_append_left (List.getElem?_eq_some_iff.mp he).1]
  exact he

/-! ### Completing a prefix -/

/-- The first `n` entries of a history, followed by the entries at some of its later positions. -/
def completedPrefix (entries : List OpEntry) (n : ℕ) (completions : List ℕ) : List OpEntry :=
  entries.take n ++ completions.filterMap fun j ↦ entries[j]?

/-- Positions behind a cut, in order, at which successful operations complete. Each of the
operations was invoked before some successful operation completed in the prefix. -/
structure CompletesOverlapping (entries : List OpEntry) (n : ℕ) (completions : List ℕ) : Prop where
  increasing : completions.Pairwise (· < ·)
  behind : ∀ j ∈ completions, n ≤ j
  overlaps : ∀ j ∈ completions, ∃ i, ⟨i, j⟩ ∈ operationsOf .ok entries ∧
    ∃ first ∈ operationsOf .ok entries, first.completion < n ∧ i < first.completion

section Completing

variable {entries : List OpEntry} {n : ℕ} {completions : List ℕ}

/-- The operation that completes at one of the positions is open in the prefix. -/
theorem CompletesOverlapping.openAt (h : CompletesOverlapping entries n completions) {j : ℕ}
    (hj : j ∈ completions) :
    ∃ i inv c, Completes entries ⟨i, j⟩ inv c ∧ c.kind = .ok ∧
      OpenAt (entries.take n) i inv := by
  obtain ⟨i, ⟨inv, c, hc, hkind⟩, first, -, hfirst, hlt⟩ := h.overlaps j hj
  refine ⟨i, inv, c, hc, hkind, ⟨getElem?_take_eq_some.mpr ⟨hlt.trans hfirst, hc.invoke_entry⟩,
    hc.invoke_kind, fun k e hk he ↦ ?_⟩⟩
  obtain ⟨hbound, he⟩ := getElem?_take_eq_some.mp he
  exact hc.adjacent k e hk (hbound.trans_le (h.behind j hj)) he

/-- The positions without the last of them. -/
theorem CompletesOverlapping.of_append {j : ℕ}
    (h : CompletesOverlapping entries n (completions ++ [j])) :
    CompletesOverlapping entries n completions ∧ ∀ k ∈ completions, k < j :=
  ⟨⟨(List.pairwise_append.mp h.increasing).1, fun k hk ↦ h.behind k (List.mem_append_left _ hk),
    fun k hk ↦ h.overlaps k (List.mem_append_left _ hk)⟩,
    fun k hk ↦ (List.pairwise_append.mp h.increasing).2.2 k hk j (List.mem_singleton.mpr rfl)⟩

theorem completedPrefix_append_singleton {j : ℕ} {c : OpEntry} (hc : entries[j]? = some c) :
    completedPrefix entries n (completions ++ [j]) =
      completedPrefix entries n completions ++ [c] := by
  simp [completedPrefix, List.filterMap_append, hc]

theorem length_completedPrefix (h : CompletesOverlapping entries n completions) :
    (completedPrefix entries n completions).length =
      (entries.take n).length + completions.length := by
  induction completions using List.reverseRecOn with
  | nil => simp [completedPrefix]
  | append_singleton completions j ih =>
    obtain ⟨i, inv, c, hc, -⟩ := h.openAt (List.mem_append_right _ (List.mem_singleton.mpr rfl))
    rw [completedPrefix_append_singleton hc.completion_entry, List.length_append,
      ih h.of_append.1, List.length_append, List.length_singleton, List.length_singleton,
      Nat.add_assoc]

/-- What stays open: the open Invokes of the prefix that none of the positions completes. -/
theorem openAt_completedPrefix (h : CompletesOverlapping entries n completions) (i : ℕ)
    (inv : OpEntry) :
    OpenAt (completedPrefix entries n completions) i inv ↔
      OpenAt (entries.take n) i inv ∧
        ∀ j ∈ completions, ∀ c, entries[j]? = some c → c.process ≠ inv.process := by
  induction completions using List.reverseRecOn with
  | nil => simp [completedPrefix]
  | append_singleton completions j ih =>
    obtain ⟨i', inv', c, hc, -⟩ := h.openAt (List.mem_append_right _ (List.mem_singleton.mpr rfl))
    rw [completedPrefix_append_singleton hc.completion_entry, openAt_append_singleton,
      ih h.of_append.1]
    constructor
    · rintro (⟨⟨hopen, hall⟩, hne⟩ | ⟨-, -, hinvoke⟩)
      · refine ⟨hopen, fun k hk e he ↦ ?_⟩
        rcases List.mem_append.mp hk with hk | hk
        · exact hall k hk e he
        · rw [List.mem_singleton.mp hk, hc.completion_entry, Option.some.injEq] at he
          exact he ▸ hne
      · exact absurd hinvoke hc.completion_kind
    · rintro ⟨hopen, hall⟩
      exact Or.inl ⟨⟨hopen, fun k hk ↦ hall k (List.mem_append_left _ hk)⟩,
        hall j (by simp) c hc.completion_entry⟩

/-- Before a position is reached, its operation is still open. -/
theorem CompletesOverlapping.openAt_last {j : ℕ}
    (h : CompletesOverlapping entries n (completions ++ [j])) {i : ℕ} {inv c : OpEntry}
    (hc : Completes entries ⟨i, j⟩ inv c) (hopen : OpenAt (entries.take n) i inv) :
    OpenAt (completedPrefix entries n completions) i inv := by
  obtain ⟨hinit, hlt⟩ := h.of_append
  refine (openAt_completedPrefix hinit i inv).mpr ⟨hopen, fun k hk e he ↦ ?_⟩
  obtain ⟨hbound, -⟩ := getElem?_take_eq_some.mp hopen.entry
  exact hc.adjacent k e (hbound.trans_le (hinit.behind k hk)) (hlt k hk) he

/-- A completed prefix of an alternating history alternates. -/
theorem alternates_completedPrefix (halternates : Alternates entries)
    (h : CompletesOverlapping entries n completions) :
    Alternates (completedPrefix entries n completions) := by
  induction completions using List.reverseRecOn with
  | nil => simpa [completedPrefix] using alternates_take halternates n
  | append_singleton completions j ih =>
    obtain ⟨i, inv, c, hc, -, hopen⟩ :=
      h.openAt (List.mem_append_right _ (List.mem_singleton.mpr rfl))
    have hinit := ih h.of_append.1
    have hodd := (hinit.odd_iff_exists_open c.process).mpr
      ⟨i, inv, h.openAt_last hc hopen, hc.process_eq.symm⟩
    rw [completedPrefix_append_singleton hc.completion_entry]
    exact (alternates_append_singleton _ _).mpr
      ⟨hinit, iff_of_false hc.completion_kind hodd⟩

/-- The operations of a completed prefix are those of the prefix and those that complete at the
positions, moved to the end of the prefix. -/
theorem completes_completedPrefix (h : CompletesOverlapping entries n completions) (o : Operation)
    (inv c : OpEntry) :
    Completes (completedPrefix entries n completions) o inv c ↔
      Completes (entries.take n) o inv c ∨
        ∃ k j, completions[k]? = some j ∧ o.completion = (entries.take n).length + k ∧
          Completes entries ⟨o.invoke, j⟩ inv c := by
  induction completions using List.reverseRecOn with
  | nil => simp [completedPrefix]
  | append_singleton completions j ih =>
    obtain ⟨i, inv', c', hc', -, hopen⟩ :=
      h.openAt (List.mem_append_right _ (List.mem_singleton.mpr rfl))
    obtain ⟨hinit, -⟩ := h.of_append
    rw [completedPrefix_append_singleton hc'.completion_entry, completes_append_singleton,
      ih hinit, length_completedPrefix hinit, or_assoc]
    refine or_congr_right ⟨?_, ?_⟩
    · rintro (⟨k, j', hget, hcompletion, hc⟩ | ⟨hcompletion, rfl, -, hprocess, hlast⟩)
      · refine ⟨k, j', ?_, hcompletion, hc⟩
        rwa [List.getElem?_append_left (List.getElem?_eq_some_iff.mp hget).1]
      · obtain ⟨heq, rfl⟩ := ((openAt_completedPrefix hinit _ _).mp hlast).1.unique hopen
          (hprocess.symm.trans hc'.process_eq)
        exact ⟨completions.length, j, List.getElem?_concat_length, hcompletion, heq ▸ hc'⟩
    · rintro ⟨k, j', hget, hcompletion, hc⟩
      rw [List.getElem?_append] at hget
      split_ifs at hget with hlt
      · exact Or.inl ⟨k, j', hget, hcompletion, hc⟩
      · obtain ⟨hzero, rfl⟩ := List.getElem?_eq_some_iff.mp hget
        simp only [List.getElem_singleton] at hc
        have hsame := hc.invoke_unique hc' rfl
        simp only [List.length_singleton] at hzero
        obtain rfl : c = c' :=
          Option.some.inj (hc.completion_entry.symm.trans hc'.completion_entry)
        simp only [Operation.mk.injEq, and_true] at hsame
        subst hsame
        obtain rfl : inv = inv' := Option.some.inj (hc.invoke_entry.symm.trans hc'.invoke_entry)
        exact Or.inr ⟨by omega, rfl, hc.completion_kind, hc.process_eq, h.openAt_last hc hopen⟩

/-- The operation of the history that an operation of a completed prefix is. -/
def original (entries : List OpEntry) (n : ℕ) (completions : List ℕ) (o : Operation) : Operation :=
  if o.completion < (entries.take n).length then o
  else ⟨o.invoke, completions.getD (o.completion - (entries.take n).length) 0⟩

theorem Completes.lt_length_take {o : Operation} {inv c : OpEntry}
    (h : Completes (entries.take n) o inv c) : o.completion < (entries.take n).length :=
  (List.getElem?_eq_some_iff.mp h.completion_entry).1

theorem original_of_take {o : Operation} {inv c : OpEntry}
    (h : Completes (entries.take n) o inv c) : original entries n completions o = o :=
  if_pos (Completes.lt_length_take h)

theorem original_of_getElem? {o : Operation} {k j : ℕ} (hget : completions[k]? = some j)
    (hcompletion : o.completion = (entries.take n).length + k) :
    original entries n completions o = ⟨o.invoke, j⟩ := by
  have hsub : o.completion - (entries.take n).length = k := by omega
  rw [original, if_neg (by omega), hsub, List.getD_eq_getElem?_getD, hget, Option.getD_some]

/-- The original of an operation has its entries. -/
theorem completes_original (h : CompletesOverlapping entries n completions) {o : Operation}
    {inv c : OpEntry} (hc : Completes (completedPrefix entries n completions) o inv c) :
    Completes entries (original entries n completions o) inv c := by
  rcases (completes_completedPrefix h o inv c).mp hc with htake | ⟨k, j, hget, hcompletion, hc⟩
  · rw [original_of_take htake]
    exact (completes_take.mp htake).1
  · rw [original_of_getElem? hget hcompletion]
    exact hc

/-- The originals of the successful operations of a completed prefix. -/
theorem image_original (h : CompletesOverlapping entries n completions) :
    original entries n completions '' operationsOf .ok (completedPrefix entries n completions) =
      {o ∈ operationsOf .ok entries | o.completion < n ∨ o.completion ∈ completions} := by
  ext o
  constructor
  · rintro ⟨o, ⟨inv, c, hc, hkind⟩, rfl⟩
    refine ⟨⟨inv, c, completes_original h hc, hkind⟩, ?_⟩
    rcases (completes_completedPrefix h o inv c).mp hc with htake | ⟨k, j, hget, hcompletion, -⟩
    · rw [original_of_take htake]
      exact Or.inl (completes_take.mp htake).2
    · rw [original_of_getElem? hget hcompletion]
      exact Or.inr (List.mem_of_getElem? hget)
  · rintro ⟨⟨inv, c, hc, hkind⟩, hlt | hin⟩
    · have htake := completes_take.mpr ⟨hc, hlt⟩
      exact ⟨o, ⟨inv, c, (completes_completedPrefix h o inv c).mpr (Or.inl htake), hkind⟩,
        original_of_take htake⟩
    · obtain ⟨k, hget⟩ := List.mem_iff_getElem?.mp hin
      let moved : Operation := ⟨o.invoke, (entries.take n).length + k⟩
      exact ⟨moved, ⟨inv, c, (completes_completedPrefix h moved inv c).mpr
        (Or.inr ⟨k, _, hget, rfl, hc⟩), hkind⟩, original_of_getElem? hget rfl⟩

/-- Operations of one original have one Invoke, so they are the same. -/
theorem original_injOn (kind : OpKind) :
    Set.InjOn (original entries n completions)
      (operationsOf kind (completedPrefix entries n completions)) := by
  rintro o ⟨inv, c, hc, -⟩ o' ⟨inv', c', hc', -⟩ heq
  have hinvoke (o : Operation) : (original entries n completions o).invoke = o.invoke := by
    unfold original
    split_ifs <;> rfl
  exact hc.unique hc' ((hinvoke o).symm.trans ((congrArg Operation.invoke heq).trans (hinvoke o')))

/-- Originals stand in real-time order as the operations do: what completes behind the prefix
precedes nothing in it. -/
theorem realTime_original_iff (h : CompletesOverlapping entries n completions) {first second :
    Operation} (hfirst : first ∈ operationsOf .ok (completedPrefix entries n completions))
    (hsecond : second ∈ operationsOf .ok (completedPrefix entries n completions)) :
    RealTime (original entries n completions first) (original entries n completions second) ↔
      RealTime first second := by
  have hearly : ∀ o ∈ operationsOf .ok (completedPrefix entries n completions),
      (original entries n completions o).invoke = o.invoke ∧
        o.invoke < (entries.take n).length := by
    rintro o ⟨inv, c, hc, -⟩
    rcases (completes_completedPrefix h o inv c).mp hc with htake | ⟨k, j, hget, hcompletion, hc⟩
    · rw [original_of_take htake]
      exact ⟨rfl, (List.getElem?_eq_some_iff.mp htake.invoke_entry).1⟩
    · rw [original_of_getElem? hget hcompletion]
      obtain ⟨i, inv', c', hc', -, hopen⟩ := h.openAt (List.mem_of_getElem? hget)
      obtain ⟨rfl, -⟩ := Operation.mk.inj (hc.invoke_unique hc' rfl)
      exact ⟨rfl, (List.getElem?_eq_some_iff.mp hopen.entry).1⟩
  obtain ⟨hinvoke, hlt⟩ := hearly second hsecond
  rw [RealTime, RealTime, hinvoke]
  obtain ⟨inv, c, hc, -⟩ := hfirst
  rcases (completes_completedPrefix h first inv c).mp hc with htake | ⟨k, j, hget, hcompletion, hc⟩
  · rw [original_of_take htake]
  · rw [original_of_getElem? hget hcompletion]
    have hbehind := h.behind j (List.mem_of_getElem? hget)
    have hcut : (entries.take n).length ≤ n := List.length_take_le _ _
    exact iff_of_false (by simp only; omega) (by omega)

/-- A completed prefix is linearizable exactly when its operations are, as operations of the
history. -/
theorem linearizable_completedPrefix_iff (h : CompletesOverlapping entries n completions) :
    Linearizable M (completedPrefix entries n completions) ↔
      Serializable {o ∈ operationsOf .ok entries | o.completion < n ∨ o.completion ∈ completions}
        RealTime (stepAt M entries) (AnswersAt M entries) M.init := by
  have hdecode : ∀ o ∈ operationsOf .ok (completedPrefix entries n completions),
      decodeAt M (completedPrefix entries n completions) o =
        decodeAt M entries (original entries n completions o) := by
    rintro o ⟨inv, c, hc, -⟩
    rw [decodeAt_eq hc, decodeAt_eq (completes_original h hc)]
  rw [← image_original h, serializable_image_iff (original_injOn .ok)]
  refine serializable_congr (fun first hfirst second hsecond ↦
    (realTime_original_iff h hfirst hsecond).symm) (fun o ho state ↦ ?_) (fun o ho state ↦ ?_) _
  · rw [stepAt, stepAt, hdecode o ho]
  · rw [AnswersAt, AnswersAt, hdecode o ho]

end Completing

/-! ### The prefixes of an accepted history -/

/-- Every prefix of a linearizable history can be completed to a linearizable one, with operations
that overlap the prefix. -/
theorem Linearizable.exists_completedPrefix {entries : List OpEntry}
    (h : Linearizable M entries) (n : ℕ) :
    ∃ completions, CompletesOverlapping entries n completions ∧
      Linearizable M (completedPrefix entries n completions) := by
  classical
  have hcut : {o ∈ operationsOf .ok entries | o.completion < n} ⊆ operationsOf .ok entries :=
    fun o ho ↦ ho.1
  obtain ⟨included, hkept, hin, hlast, hserializable⟩ := Serializable.upTo h hcut
  obtain ⟨order, ⟨hnodup, hmem⟩, hsorted⟩ := exists_enumeration .ok entries
  -- the operations behind the cut that stand before the last one of the prefix
  let straddling : List Operation := order.filter fun o ↦ o ∈ included ∧ n ≤ o.completion
  have hstraddling (o : Operation) : o ∈ straddling ↔ o ∈ included ∧ n ≤ o.completion := by
    simp only [straddling, List.mem_filter, decide_eq_true_eq, and_iff_right_iff_imp, hmem]
    exact fun ho ↦ hin ho.1
  have hincreasing : (straddling.map Operation.completion).Pairwise (· < ·) := by
    have hdistinct : order.Pairwise fun first second ↦ first.completion < second.completion := by
      refine (hsorted.and hnodup).imp_of_mem fun hfirst hsecond hboth ↦ ?_
      obtain ⟨inv, c, hc, -⟩ := (hmem _).mp hfirst
      obtain ⟨inv', c', hc', -⟩ := (hmem _).mp hsecond
      exact hboth.1.lt_of_ne fun heq ↦ hboth.2 (hc.invoke_unique hc' heq)
    exact List.pairwise_map.mpr (hdistinct.filter _)
  have hcompletes : CompletesOverlapping entries n (straddling.map Operation.completion) := by
    refine ⟨hincreasing, ?_, ?_⟩ <;> simp only [List.forall_mem_map, hstraddling]
    · exact fun o ho ↦ ho.2
    · rintro o ⟨ho, hbehind⟩
      obtain ⟨first, ⟨hfirst, hlt⟩, hnot⟩ := hlast o ho fun hkept ↦ hbehind.not_gt hkept.2
      refine ⟨o.invoke, hin ho, first, hfirst, hlt, ?_⟩
      obtain ⟨inv, c, hc, -⟩ := hin ho
      obtain ⟨inv', c', hc', -⟩ := hfirst
      exact (not_lt.mp hnot).lt_of_ne (hc.invoke_ne_completion hc')
  refine ⟨_, hcompletes, (linearizable_completedPrefix_iff hcompletes).mpr ?_⟩
  have hset : {o ∈ operationsOf .ok entries | o.completion < n ∨
      o.completion ∈ straddling.map Operation.completion} = included := by
    ext o
    constructor
    · rintro ⟨ho, hlt | hcompletion⟩
      · exact hkept ⟨ho, hlt⟩
      · obtain ⟨o', ho', heq⟩ := List.mem_map.mp hcompletion
        obtain ⟨inv, c, hc, -⟩ := ho
        obtain ⟨inv', c', hc', -⟩ := hin ((hstraddling o').mp ho').1
        exact hc'.invoke_unique hc heq ▸ ((hstraddling o').mp ho').1
    · intro ho
      refine ⟨hin ho, (lt_or_ge o.completion n).imp_right fun hbehind ↦ ?_⟩
      exact List.mem_map_of_mem ((hstraddling o).mpr ⟨ho, hbehind⟩)
  rw [hset]
  exact hserializable

/-- Every prefix of an accepted history is accepted by the linearizable mode together with the
completions of some of its open operations: successful ones that were invoked before some successful
operation completed in the prefix. Assumes: an alternating history without indeterminate
completions, in which the model decodes every successful operation. -/
theorem linearizable_check_completedPrefix (M : SequentialModel) (out : RunOutput) (n : ℕ)
    (halternates : Alternates out.history.entries)
    (hdefinite : ∀ e ∈ out.history.entries, e.kind ≠ .info)
    (hdecodes : Decodes M .ok out.history.entries)
    (haccepted : ((linearizableOracle M).check out).isValid = true) :
    ∃ completions, CompletesOverlapping out.history.entries n completions ∧
      ∀ prefixOut : RunOutput,
        prefixOut.history.entries = completedPrefix out.history.entries n completions →
          ((linearizableOracle M).check prefixOut).isValid = true := by
  have hwhole := (linearizable_check_iff M out halternates hdefinite hdecodes).mp haccepted
  obtain ⟨completions, hcompletes, hlinearizable⟩ := hwhole.exists_completedPrefix n
  refine ⟨completions, hcompletes, fun prefixOut hentries ↦ ?_⟩
  rw [← hentries] at hlinearizable
  refine (linearizable_check_iff M prefixOut ?_ (fun e he ↦ ?_) ?_).mpr hlinearizable
  · rw [hentries]
    exact alternates_completedPrefix halternates hcompletes
  · rw [hentries, completedPrefix, List.mem_append, List.mem_filterMap] at he
    rcases he with he | ⟨j, -, hj⟩
    · exact hdefinite e (List.mem_of_mem_take he)
    · exact hdefinite e (List.mem_of_getElem? hj)
  · rw [hentries]
    rintro o ⟨inv, c, hc, hkind⟩
    have hentry := completes_original hcompletes hc
    rw [decodeAt_eq hc, ← decodeAt_eq hentry]
    exact hdecodes _ ⟨inv, c, hentry, hkind⟩

/-- A write that a read observes before the write completes. -/
def straddlingWrite : List OpEntry :=
  [registerEntry 0 .invoke 0 "write" 1, registerEntry 1 .invoke 1 "read" 1,
    registerEntry 2 .ok 1 "read" 1, registerEntry 3 .ok 0 "write" 1]

/-- The observed write has a place in a completion of the prefix in which it is open. -/
theorem straddlingWrite_completedPrefix :
    ∃ completions, CompletesOverlapping straddlingWrite 3 completions ∧
      ∀ prefixOut : RunOutput,
        prefixOut.history.entries = completedPrefix straddlingWrite 3 completions →
          ((linearizableOracle registerModel).check prefixOut).isValid = true :=
  linearizable_check_completedPrefix registerModel (historyOutput straddlingWrite) 3 (by decide)
    (by decide) (decodes_of_forall_mem (by decide)) (by decide +kernel)

/-- The history with the observed write is accepted, and its prefix in which the write is open is
rejected. -/
theorem straddlingWrite_prefix_rejected :
    Alternates straddlingWrite ∧ (∀ e ∈ straddlingWrite, e.kind ≠ .info) ∧
      Decodes registerModel .ok straddlingWrite ∧
      ((linearizableOracle registerModel).check (historyOutput straddlingWrite)).isValid = true ∧
      ((linearizableOracle registerModel).check
        (historyOutput (straddlingWrite.take 3))).isValid = false :=
  ⟨by decide, by decide, decodes_of_forall_mem (by decide), by decide +kernel, by decide +kernel⟩

end Propsim.Oracle
