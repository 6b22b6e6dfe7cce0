import Propsim.Interchange.WellFormed
import Propsim.Simulator.CoreSteps

/-!
# The recorded history and the pending operations

`Recorded` ties the history of a scheduler core to its table of pending operations: the history is
numbered, timed and alternating, the pending operations are exactly its open Invokes, each under
its own token and at most one for each process, and every completion carries the `:f` of its
Invoke. Closing a token and opening an operation of an idle process keep it, whatever tokens the
node makes up.
-/

set_option autoImplicit false
set_option relaxedAutoImplicit false

namespace Propsim.Simulator

open Foundation Interchange Propsim.Core

variable {N : Node}

/-- Later virtual times are recorded as later nanoseconds, up to saturation. -/
theorem nowNanos_mono {a b : Duration} (h : a ≤ b) : nowNanos a ≤ nowNanos b := by
  have hbound (d : Duration) : (nowNanos d).toInt = min d.nanos (2 ^ 63 - 1) := by
    rw [nowNanos, Int64.toInt_ofNat_of_lt (by omega)]
  rw [Int64.le_iff_toInt_le, hbound, hbound]
  have hle : a.nanos ≤ b.nanos := h
  omega

/-- The history of a core and its table of pending operations belong together. -/
structure Recorded (core : SchedCore N) : Prop where
  index_eq : ∀ (i : ℕ) (e : OpEntry), core.history.entries[i]? = some e → e.index = .ofNat i
  times : core.history.entries.Pairwise fun first second ↦ first.time.nanos ≤ second.time.nanos
  passed : ∀ e ∈ core.history.entries, e.time.nanos ≤ nowNanos core.now
  alternates : Alternates core.history.entries
  function_eq : ∀ o inv c, Completes core.history.entries o inv c → c.f = inv.f
  tokens : (core.pendingOps.map (·.1)).Nodup
  issued : ∀ entry ∈ core.pendingOps, entry.1 < core.nextToken
  processes : (core.pendingOps.map (·.2.process)).Nodup
  open_iff : ∀ p f, (∃ token, (token, PendingOp.mk p f) ∈ core.pendingOps) ↔
    ∃ i inv, OpenAt core.history.entries i inv ∧ inv.process = p ∧ inv.f = f

theorem mem_of_pending {core : SchedCore N} {token : OpToken} {p : PendingOp}
    (h : core.pending token = some p) : (token.id, p) ∈ core.pendingOps := by
  rw [SchedCore.pending, Option.map_eq_some_iff] at h
  obtain ⟨⟨id, p'⟩, hfind, rfl⟩ := h
  have hid : id = token.id := by simpa using List.find?_some hfind
  exact hid ▸ List.mem_of_find?_eq_some hfind

@[simp] theorem pendingOps_openOp (core : SchedCore N) (process : ProcessId) (f : Function)
    (value : Value) :
    (core.openOp process f value).2.pendingOps =
      core.pendingOps ++ [(core.nextToken, ⟨process, f⟩)] := rfl

namespace Recorded

variable {core core' : SchedCore N}

/-- A fresh history. -/
theorem fresh (hhistory : core.history = .default) (hpending : core.pendingOps = []) :
    Recorded core := by
  have hentries : core.history.entries = [] := by rw [hhistory]; rfl
  refine ⟨?_, ?_, ?_, ?_, ?_, ?_, ?_, ?_, ?_⟩ <;> simp only [hentries, hpending]
  · simp
  · exact List.Pairwise.nil
  · simp
  · exact alternates_nil
  · intro o inv c h
    simpa using h.invoke_entry
  · exact List.nodup_nil
  · simp
  · exact List.nodup_nil
  · intro p f
    constructor
    · rintro ⟨token, h⟩
      simp at h
    · rintro ⟨i, inv, hopen, -⟩
      simpa using hopen.entry

/-- Only the history, the table, the token counter and the clock matter, and the clock may
advance. -/
theorem congr (h : Recorded core) (hhistory : core'.history = core.history)
    (hpending : core'.pendingOps = core.pendingOps) (htoken : core'.nextToken = core.nextToken)
    (hnow : core.now ≤ core'.now) : Recorded core' where
  index_eq := by rw [hhistory]; exact h.index_eq
  times := by rw [hhistory]; exact h.times
  passed := by
    rw [hhistory]
    exact fun e he ↦ Int64.le_trans (h.passed e he) (nowNanos_mono hnow)
  alternates := by rw [hhistory]; exact h.alternates
  function_eq := by rw [hhistory]; exact h.function_eq
  tokens := by rw [hpending]; exact h.tokens
  issued := by rw [hpending, htoken]; exact h.issued
  processes := by rw [hpending]; exact h.processes
  open_iff := by rw [hhistory, hpending]; exact h.open_iff

/-- A process is idle exactly when the table has no operation of it. -/
theorem idle_iff (h : Recorded core) (p : ProcessId) :
    Even (project p core.history.entries).length ↔
      ∀ entry ∈ core.pendingOps, entry.2.process ≠ p := by
  rw [← not_iff_not, h.alternates.odd_iff_exists_open p]
  push Not
  constructor
  · rintro ⟨i, inv, hopen, rfl⟩
    obtain ⟨token, hin⟩ := (h.open_iff inv.process inv.f).mpr ⟨i, inv, hopen, rfl, rfl⟩
    exact ⟨_, hin, rfl⟩
  · rintro ⟨⟨token, p', f⟩, hin, rfl⟩
    obtain ⟨i, inv, hopen, hprocess, -⟩ := (h.open_iff p' f).mp ⟨token, hin⟩
    exact ⟨i, inv, hopen, hprocess⟩

/-- The part of the invariant that one more entry at the current time keeps. -/
theorem numbered_and_timed (h : Recorded core) (kind : OpKind) (process : ProcessId)
    (f : Function) (value : Value) :
    let entries := (core.record kind process f value).history.entries
    (∀ (i : ℕ) (e : OpEntry), entries[i]? = some e → e.index = .ofNat i) ∧
      (entries.Pairwise fun first second ↦ first.time.nanos ≤ second.time.nanos) ∧
      ∀ e ∈ entries, e.time.nanos ≤ nowNanos core.now := by
  refine ⟨fun i e he ↦ ?_, ?_, fun e he ↦ ?_⟩
  · change (core.history.entries ++ [_])[i]? = some e at he
    rw [List.getElem?_append] at he
    split_ifs at he with hlt
    · exact h.index_eq i e he
    · obtain ⟨hlen, rfl⟩ := List.getElem?_eq_some_iff.mp he
      simp only [List.length_singleton] at hlen
      have hi : i = core.history.entries.length := by omega
      simp [hi]
  · refine List.pairwise_append.mpr ⟨h.times, List.pairwise_singleton _ _, fun a ha b hb ↦ ?_⟩
    rw [List.mem_singleton.mp hb]
    exact h.passed a ha
  · rcases List.mem_append.mp he with he | he
    · exact h.passed e he
    · rw [List.mem_singleton.mp he]
      exact Int64.le_refl _

/-- Opening an operation of an idle process. -/
theorem openOp (h : Recorded core) (process : ProcessId) (f : Function) (value : Value)
    (hidle : ∀ entry ∈ core.pendingOps, entry.2.process ≠ process) :
    Recorded (core.openOp process f value).2 := by
  obtain ⟨hindex, htimes, hpassed⟩ := h.numbered_and_timed .invoke process f value
  have heven := (h.idle_iff process).mpr hidle
  refine ⟨hindex, htimes, hpassed, ?_, fun o inv c hcompletes ↦ ?_, ?_, fun entry hentry ↦ ?_, ?_,
    fun p f' ↦ ?_⟩
  · exact (alternates_append_singleton _ _).mpr ⟨h.alternates, iff_of_true rfl heven⟩
  · rcases (completes_append_singleton _ _ _ _ _).mp hcompletes with hold | ⟨-, -, hkind, -⟩
    · exact h.function_eq o inv c hold
    · exact absurd rfl hkind
  · rw [pendingOps_openOp, List.map_append, List.nodup_append]
    refine ⟨h.tokens, List.nodup_singleton _, fun a ha b hb ↦ ?_⟩
    obtain ⟨entry, hentry, rfl⟩ := List.mem_map.mp ha
    rw [List.mem_singleton.mp hb]
    exact (h.issued entry hentry).ne
  · rcases List.mem_append.mp hentry with hentry | hentry
    · exact Nat.lt_succ_of_lt (h.issued entry hentry)
    · rw [List.mem_singleton.mp hentry]
      exact Nat.lt_succ_self _
  · rw [pendingOps_openOp, List.map_append, List.nodup_append]
    refine ⟨h.processes, List.nodup_singleton _, fun a ha b hb ↦ ?_⟩
    obtain ⟨entry, hentry, rfl⟩ := List.mem_map.mp ha
    rw [List.mem_singleton.mp hb]
    exact hidle entry hentry
  · change (∃ token, (token, _) ∈ core.pendingOps ++ [_]) ↔
      ∃ i inv, OpenAt (core.history.entries ++ [_]) i inv ∧ _
    simp only [openAt_append_singleton, List.mem_append, List.mem_singleton, exists_or,
      or_and_right]
    refine or_congr ?_ ?_
    · rw [h.open_iff]
      refine exists₂_congr fun i inv ↦ ?_
      have hother (hopen : OpenAt core.history.entries i inv) : process ≠ inv.process := by
        rintro rfl
        exact (h.alternates.odd_iff_exists_open inv.process).mpr ⟨i, inv, hopen, rfl⟩ heven
      tauto
    · simp [eq_comm]

/-- Closing a token. An unknown token changes nothing. -/
theorem closeOp (h : Recorded core) (token : OpToken) {kind : OpKind} (value : Value)
    (hkind : kind ≠ .invoke) : Recorded (core.closeOp token kind value) := by
  unfold SchedCore.closeOp
  split
  · exact h
  rename_i p hp
  have hin := mem_of_pending hp
  obtain ⟨i, inv, hopen, hprocess, hf⟩ := (h.open_iff p.process p.f).mp ⟨token.id, hin⟩
  obtain ⟨hindex, htimes, hpassed⟩ := h.numbered_and_timed kind p.process p.f value
  -- Any other entry of the table is of another token and of another process.
  have hrest (entry : ℕ × PendingOp) (hentry : entry ∈ core.pendingOps) :
      entry.1 ≠ token.id ↔ entry.2.process ≠ p.process := by
    rw [not_iff_not]
    constructor
    · intro hsame
      rw [List.inj_on_of_nodup_map h.tokens hentry hin hsame]
    · intro hsame
      rw [List.inj_on_of_nodup_map h.processes hentry hin hsame]
  refine ⟨hindex, htimes, hpassed, ?_, fun o inv' c hcompletes ↦ ?_, ?_, fun entry hentry ↦ ?_, ?_,
    fun p' f' ↦ ?_⟩
  · refine (alternates_append_singleton _ _).mpr ⟨h.alternates, iff_of_false hkind ?_⟩
    exact (h.alternates.odd_iff_exists_open p.process).mpr ⟨i, inv, hopen, hprocess⟩
  · rcases (completes_append_singleton _ _ _ _ _).mp hcompletes with
      hold | ⟨-, rfl, -, hsame, hopen'⟩
    · exact h.function_eq o inv' c hold
    · change p.process = inv'.process at hsame
      rw [← (hopen.unique hopen' (hprocess.trans hsame)).2, hf]
  · exact h.tokens.sublist ((List.filter_sublist).map _)
  · exact h.issued entry (List.mem_filter.mp hentry).1
  · exact h.processes.sublist ((List.filter_sublist).map _)
  · change (∃ id, (id, _) ∈ core.pendingOps.filter _) ↔
      ∃ i inv, OpenAt (core.history.entries ++ [_]) i inv ∧ _
    simp only [openAt_append_singleton, List.mem_filter, decide_eq_true_eq]
    constructor
    · rintro ⟨id, hentry, hne⟩
      obtain ⟨j, inv', hopen', rfl, rfl⟩ := (h.open_iff p' f').mp ⟨id, hentry⟩
      exact ⟨j, inv', Or.inl ⟨hopen', ((hrest _ hentry).mp hne).symm⟩, rfl, rfl⟩
    · rintro ⟨j, inv', ⟨hopen', hne⟩ | ⟨-, -, hinvoke⟩, rfl, rfl⟩
      · obtain ⟨id, hentry⟩ := (h.open_iff inv'.process inv'.f).mpr ⟨j, inv', hopen', rfl, rfl⟩
        exact ⟨id, hentry, (hrest _ hentry).mpr hne.symm⟩
      · exact absurd hinvoke hkind

/-- Closing several tokens. -/
theorem closeAll (h : Recorded core) (tokens : List ℕ) : Recorded (core.closeAll tokens) := by
  induction tokens generalizing core with
  | nil => exact h
  | cons token rest ih => exact ih (h.closeOp ⟨token⟩ .nil (by decide))

/-- A core step. -/
theorem coreStep (h : Recorded core) (hstep : CoreStep core core') : Recorded core' := by
  cases hstep with
  | quiet => exact h.congr rfl rfl rfl le_rfl
  | enqueue => exact h.congr rfl rfl rfl le_rfl
  | close token value hkind => exact h.closeOp token value hkind

end Recorded

end Propsim.Simulator
