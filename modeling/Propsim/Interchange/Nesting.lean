import Propsim.Interchange.WellFormed

/-!
# Invokes and completions as brackets

In any history, alternating or not, the Invokes and the completions of one process can be read as
opening and closing brackets: a completion closes the most recent Invoke of its process that is
still pending, and closes nothing when there is none. An Invoke and a completion belong together
when the entries of their process between them are balanced (`Closes`). On an alternating history
nothing stands between them, and they are an operation (`Alternates.closes_iff`).
-/

set_option autoImplicit false
set_option relaxedAutoImplicit false

namespace Propsim.Interchange

/-- The number of Invokes of a process. -/
def invokesOf (p : ProcessId) (entries : List OpEntry) : ℕ :=
  entries.countP fun e ↦ e.process = p ∧ e.kind = .invoke

/-- The number of completions of a process. -/
def completionsOf (p : ProcessId) (entries : List OpEntry) : ℕ :=
  entries.countP fun e ↦ e.process = p ∧ e.kind ≠ .invoke

/-- No completion of the process closes an Invoke from before these entries. -/
def Contained (p : ProcessId) (entries : List OpEntry) : Prop :=
  ∀ front, front <+: entries → completionsOf p front ≤ invokesOf p front

/-- The entry at a position is an Invoke that no later entry closes. -/
structure Pending (entries : List OpEntry) (i : ℕ) (inv : OpEntry) : Prop where
  entry : entries[i]? = some inv
  kind : inv.kind = .invoke
  contained : Contained inv.process (entries.drop (i + 1))

/-- The entries strictly between the two positions of an operation. -/
def between (entries : List OpEntry) (o : Operation) : List OpEntry :=
  (entries.take o.completion).drop (o.invoke + 1)

/-- The entries at two positions are an Invoke and the completion that closes it: those of their
process between them are balanced. -/
structure Closes (entries : List OpEntry) (o : Operation) (inv c : OpEntry) : Prop where
  invoke_entry : entries[o.invoke]? = some inv
  completion_entry : entries[o.completion]? = some c
  invoke_kind : inv.kind = .invoke
  completion_kind : c.kind ≠ .invoke
  process_eq : c.process = inv.process
  invoke_lt : o.invoke < o.completion
  contained : Contained inv.process (between entries o)
  balanced : completionsOf inv.process (between entries o) =
    invokesOf inv.process (between entries o)

/-! ### Counting -/

theorem invokesOf_append (p : ProcessId) (first second : List OpEntry) :
    invokesOf p (first ++ second) = invokesOf p first + invokesOf p second :=
  List.countP_append

theorem completionsOf_append (p : ProcessId) (first second : List OpEntry) :
    completionsOf p (first ++ second) = completionsOf p first + completionsOf p second :=
  List.countP_append

theorem invokesOf_singleton (p : ProcessId) (e : OpEntry) :
    invokesOf p [e] = if e.process = p ∧ e.kind = .invoke then 1 else 0 := by
  simp [invokesOf, List.countP_singleton]

theorem completionsOf_singleton (p : ProcessId) (e : OpEntry) :
    completionsOf p [e] = if e.process = p ∧ e.kind ≠ .invoke then 1 else 0 := by
  simp [completionsOf, List.countP_singleton]

theorem contained_nil (p : ProcessId) : Contained p [] := by
  intro front hfront
  rw [List.prefix_nil.mp hfront]
  exact le_rfl

theorem Contained.completionsOf_le {p : ProcessId} {entries : List OpEntry}
    (h : Contained p entries) : completionsOf p entries ≤ invokesOf p entries :=
  h entries (List.prefix_refl entries)

theorem Contained.of_prefix {p : ProcessId} {front entries : List OpEntry}
    (h : Contained p entries) (hfront : front <+: entries) : Contained p front :=
  fun first hfirst ↦ h first (hfirst.trans hfront)

theorem contained_append_singleton (p : ProcessId) (entries : List OpEntry) (e : OpEntry) :
    Contained p (entries ++ [e]) ↔
      Contained p entries ∧ completionsOf p (entries ++ [e]) ≤ invokesOf p (entries ++ [e]) := by
  constructor
  · exact fun h ↦ ⟨h.of_prefix (List.prefix_append _ _), h.completionsOf_le⟩
  · rintro ⟨hold, hlast⟩ front hfront
    rcases List.prefix_concat_iff.mp hfront with rfl | hfront
    · exact hlast
    · exact hold front hfront

/-- Entries of other processes are balanced. -/
theorem counts_eq_zero {p : ProcessId} {entries : List OpEntry}
    (h : ∀ e ∈ entries, e.process ≠ p) : completionsOf p entries = 0 ∧ invokesOf p entries = 0 := by
  constructor <;>
    exact List.countP_eq_zero.mpr fun e he ↦ by simp [h e he]

theorem contained_of_forall_ne {p : ProcessId} {entries : List OpEntry}
    (h : ∀ e ∈ entries, e.process ≠ p) : Contained p entries := fun _ hfront ↦
  (counts_eq_zero fun e he ↦ h e (hfront.subset he)).1 ▸ Nat.zero_le _

/-! ### One more entry -/

theorem drop_append_singleton {entries : List OpEntry} {i : ℕ} (hlt : i < entries.length)
    (e : OpEntry) : (entries ++ [e]).drop (i + 1) = entries.drop (i + 1) ++ [e] :=
  List.drop_append_of_le_length hlt

/-- One more entry is pending itself when it is an Invoke. A completion closes what has no pending
Invoke of its process behind it. -/
theorem pending_append_singleton (entries : List OpEntry) (e : OpEntry) (i : ℕ) (inv : OpEntry) :
    Pending (entries ++ [e]) i inv ↔
      (Pending entries i inv ∧ (e.process = inv.process → e.kind ≠ .invoke →
        completionsOf inv.process (entries.drop (i + 1)) <
          invokesOf inv.process (entries.drop (i + 1)))) ∨
        (i = entries.length ∧ inv = e ∧ e.kind = .invoke) := by
  have hcount (p : ProcessId) (segment : List OpEntry) (hle : completionsOf p segment ≤
      invokesOf p segment) : completionsOf p (segment ++ [e]) ≤ invokesOf p (segment ++ [e]) ↔
        (e.process = p → e.kind ≠ .invoke → completionsOf p segment < invokesOf p segment) := by
    rw [completionsOf_append, invokesOf_append, completionsOf_singleton, invokesOf_singleton]
    by_cases hp : e.process = p <;> by_cases hkind : e.kind = .invoke <;>
      simp only [hp, hkind, and_self, and_true, and_false, if_true, if_false, ne_eq,
        not_true_eq_false, not_false_eq_true, forall_true_left, IsEmpty.forall_iff, iff_true] <;>
      omega
  constructor
  · rintro ⟨hentry, hkind, hcontained⟩
    rcases Nat.lt_or_ge i entries.length with hlt | hge
    · rw [List.getElem?_append_left hlt] at hentry
      rw [drop_append_singleton hlt, contained_append_singleton] at hcontained
      obtain ⟨hold, hlast⟩ := hcontained
      exact Or.inl ⟨⟨hentry, hkind, hold⟩, (hcount _ _ hold.completionsOf_le).mp hlast⟩
    · rw [List.getElem?_append_right hge] at hentry
      obtain ⟨hbound, heq⟩ := List.getElem?_eq_some_iff.mp hentry
      rw [List.length_singleton] at hbound
      obtain rfl : e = inv := by simpa using heq
      exact Or.inr ⟨by omega, rfl, hkind⟩
  · rintro (⟨⟨hentry, hkind, hold⟩, hstrict⟩ | ⟨rfl, rfl, hkind⟩)
    · have hlt := (List.getElem?_eq_some_iff.mp hentry).1
      refine ⟨by rwa [List.getElem?_append_left hlt], hkind, ?_⟩
      rw [drop_append_singleton hlt, contained_append_singleton]
      exact ⟨hold, (hcount _ _ hold.completionsOf_le).mpr hstrict⟩
    · refine ⟨List.getElem?_concat_length, hkind, ?_⟩
      rw [List.drop_eq_nil_of_le (by simp)]
      exact contained_nil _

/-- One more entry closes a pending Invoke of its process, one with nothing pending behind it. -/
theorem closes_append_singleton (entries : List OpEntry) (e : OpEntry) (o : Operation)
    (inv c : OpEntry) :
    Closes (entries ++ [e]) o inv c ↔
      Closes entries o inv c ∨
        (o.completion = entries.length ∧ c = e ∧ e.kind ≠ .invoke ∧ e.process = inv.process ∧
          Pending entries o.invoke inv ∧
          completionsOf inv.process (entries.drop (o.invoke + 1)) =
            invokesOf inv.process (entries.drop (o.invoke + 1))) := by
  have hbetween (hle : o.completion ≤ entries.length) :
      between (entries ++ [e]) o = between entries o := by
    rw [between, between, List.take_append_of_le_length hle]
  have hwhole (heq : o.completion = entries.length) :
      between entries o = entries.drop (o.invoke + 1) := by
    rw [between, heq, List.take_length]
  constructor
  · rintro ⟨hinv, hc, hik, hck, hp, hlt, hcontained, hbalanced⟩
    have hbound := (List.getElem?_eq_some_iff.mp hc).1
    rw [List.length_append, List.length_singleton] at hbound
    rw [hbetween (by omega)] at hcontained hbalanced
    rw [List.getElem?_append_left (by omega)] at hinv
    by_cases hlast : o.completion = entries.length
    · rw [hlast, List.getElem?_concat_length, Option.some.injEq] at hc
      rw [hwhole hlast] at hcontained hbalanced
      subst hc
      exact Or.inr ⟨hlast, rfl, hck, hp, ⟨hinv, hik, hcontained⟩, hbalanced⟩
    · rw [List.getElem?_append_left (by omega)] at hc
      exact Or.inl ⟨hinv, hc, hik, hck, hp, hlt, hcontained, hbalanced⟩
  · rintro (⟨hinv, hc, hik, hck, hp, hlt, hcontained, hbalanced⟩ |
      ⟨hlast, rfl, hck, hp, ⟨hinv, hik, hcontained⟩, hbalanced⟩)
    · have hinvlt := (List.getElem?_eq_some_iff.mp hinv).1
      have hclt := (List.getElem?_eq_some_iff.mp hc).1
      rw [← hbetween (Nat.le_of_lt hclt)] at hcontained hbalanced
      exact ⟨by rwa [List.getElem?_append_left hinvlt], by rwa [List.getElem?_append_left hclt],
        hik, hck, hp, hlt, hcontained, hbalanced⟩
    · have hinvlt := (List.getElem?_eq_some_iff.mp hinv).1
      rw [← hwhole hlast, ← hbetween (Nat.le_of_eq hlast)] at hcontained hbalanced
      exact ⟨by rwa [List.getElem?_append_left hinvlt],
        by rw [hlast, List.getElem?_concat_length], hik, hck, hp, hlast ▸ hinvlt, hcontained,
        hbalanced⟩

/-! ### The most recent pending Invoke -/

/-- A surplus of Invokes over completions is made of pending Invokes, one for each level: that of
level `m` has `m` pending Invokes behind it. -/
theorem exists_pending_of_lt {p : ProcessId} {entries : List OpEntry} {m : ℕ}
    (h : completionsOf p entries + m < invokesOf p entries) :
    ∃ i inv, Pending entries i inv ∧ inv.process = p ∧
      completionsOf p (entries.drop (i + 1)) + m = invokesOf p (entries.drop (i + 1)) := by
  induction entries using List.reverseRecOn generalizing m with
  | nil => simp [completionsOf, invokesOf] at h
  | append_singleton entries e ih =>
    -- what the earlier entries give, at a level that the new entry moves to `m`
    have hearlier (m' : ℕ) (hlt : completionsOf p entries + m' < invokesOf p entries)
        (hlevel : completionsOf p [e] + m = invokesOf p [e] + m') :
        ∃ i inv, Pending (entries ++ [e]) i inv ∧ inv.process = p ∧
          completionsOf p ((entries ++ [e]).drop (i + 1)) + m =
            invokesOf p ((entries ++ [e]).drop (i + 1)) := by
      obtain ⟨i, inv, hpending, rfl, hcount⟩ := ih hlt
      have hi := (List.getElem?_eq_some_iff.mp hpending.entry).1
      refine ⟨i, inv, (pending_append_singleton entries e i inv).mpr
        (Or.inl ⟨hpending, fun hp hkind ↦ ?_⟩), rfl, ?_⟩
      · rw [completionsOf_singleton, invokesOf_singleton, if_pos ⟨hp, hkind⟩,
          if_neg fun hboth ↦ hkind hboth.2] at hlevel
        omega
      · rw [drop_append_singleton hi, completionsOf_append, invokesOf_append]
        omega
    rw [completionsOf_append, invokesOf_append] at h
    by_cases hp : e.process = p
    · by_cases hkind : e.kind = .invoke
      · have hinvokes : invokesOf p [e] = 1 := by rw [invokesOf_singleton, if_pos ⟨hp, hkind⟩]
        have hcompletions : completionsOf p [e] = 0 := by
          rw [completionsOf_singleton, if_neg fun hboth ↦ hboth.2 hkind]
        cases m with
        | zero =>
          refine ⟨entries.length, e, (pending_append_singleton entries e _ e).mpr
            (Or.inr ⟨rfl, rfl, hkind⟩), hp, ?_⟩
          rw [List.drop_eq_nil_of_le (by simp)]
          rfl
        | succ m => exact hearlier m (by omega) (by omega)
      · have hinvokes : invokesOf p [e] = 0 := by
          rw [invokesOf_singleton, if_neg fun hboth ↦ hkind hboth.2]
        have hcompletions : completionsOf p [e] = 1 := by
          rw [completionsOf_singleton, if_pos ⟨hp, hkind⟩]
        exact hearlier (m + 1) (by omega) (by omega)
    · obtain ⟨hcompletions, hinvokes⟩ := @counts_eq_zero p [e] (by simpa using hp)
      exact hearlier m (by omega) (by omega)

/-- An Invoke that is pending with a pending Invoke of its process behind it has a surplus behind
it. -/
theorem Pending.lt_of_lt {entries : List OpEntry} {i j : ℕ} {first second : OpEntry}
    (hfirst : Pending entries i first) (hsecond : Pending entries j second) (hlt : i < j)
    (hprocess : second.process = first.process) :
    completionsOf first.process (entries.drop (i + 1)) <
      invokesOf first.process (entries.drop (i + 1)) := by
  have hj := (List.getElem?_eq_some_iff.mp hsecond.entry).1
  have hsplit : entries.drop (i + 1) =
      (entries.drop (i + 1)).take (j - (i + 1)) ++ [second] ++ entries.drop (j + 1) := by
    have hdrop : entries.drop j = second :: entries.drop (j + 1) := by
      rw [List.drop_eq_getElem_cons hj, (List.getElem?_eq_some_iff.mp hsecond.entry).2]
    have hsum : i + 1 + (j - (i + 1)) = j := by omega
    rw [List.append_assoc, List.singleton_append, ← hdrop]
    conv_lhs => rw [← List.take_append_drop (j - (i + 1)) (entries.drop (i + 1))]
    rw [List.drop_drop, hsum]
  have hfront := hfirst.contained _ (List.take_prefix (j - (i + 1)) _)
  have hback := hprocess ▸ hsecond.contained.completionsOf_le
  rw [hsplit]
  simp only [completionsOf_append, invokesOf_append, completionsOf_singleton, invokesOf_singleton,
    hprocess, hsecond.kind, ne_eq, not_true_eq_false, and_false, and_self, if_true, if_false]
  omega

/-- Of the pending Invokes of a process, the most recent one has no surplus behind it. -/
theorem Pending.balanced_of_last {entries : List OpEntry} {i : ℕ} {inv : OpEntry}
    (h : Pending entries i inv)
    (hlast : ∀ j other, Pending entries j other → other.process = inv.process → j ≤ i) :
    completionsOf inv.process (entries.drop (i + 1)) =
      invokesOf inv.process (entries.drop (i + 1)) := by
  refine Nat.le_antisymm h.contained.completionsOf_le (Nat.le_of_not_lt fun hsurplus ↦ ?_)
  obtain ⟨k, other, hpending, hprocess, -⟩ := exists_pending_of_lt (m := 0) hsurplus
  have hentry := hpending.entry
  have hcontained := hpending.contained
  rw [List.getElem?_drop] at hentry
  rw [List.drop_drop] at hcontained
  have := hlast (i + 1 + k) other ⟨hentry, hpending.kind, by rwa [← Nat.add_assoc] at hcontained⟩
    hprocess
  omega

/-- A completion closes one Invoke. -/
theorem Closes.invoke_unique {entries : List OpEntry} {o o' : Operation}
    {inv c inv' c' : OpEntry} (h : Closes entries o inv c) (h' : Closes entries o' inv' c')
    (hcompletion : o.completion = o'.completion) : o = o' := by
  have hpending : ∀ {o : Operation} {inv c : OpEntry}, Closes entries o inv c →
      Pending (entries.take o.completion) o.invoke inv := fun h ↦
    ⟨by rw [List.getElem?_take_of_lt h.invoke_lt, h.invoke_entry], h.invoke_kind, h.contained⟩
  have hprocess : inv.process = inv'.process := by
    have hc := h.completion_entry.symm.trans (hcompletion ▸ h'.completion_entry)
    rw [← h.process_eq, ← h'.process_eq, Option.some.inj hc]
  have hother := hcompletion ▸ hpending h'
  ext
  · rcases Nat.lt_trichotomy o.invoke o'.invoke with hlt | heq | hgt
    · exact absurd h.balanced (Nat.ne_of_lt ((hpending h).lt_of_lt hother hlt hprocess.symm))
    · exact heq
    · have hsurplus := hother.lt_of_lt (hpending h) hgt hprocess
      rw [hcompletion] at hsurplus
      exact absurd h'.balanced (Nat.ne_of_lt hsurplus)
  · exact hcompletion

/-! ### Alternating histories -/

/-- In any history an operation is an Invoke and the completion that closes it. -/
theorem Completes.closes {entries : List OpEntry} {o : Operation} {inv c : OpEntry}
    (h : Completes entries o inv c) : Closes entries o inv c := by
  have hothers : ∀ e ∈ between entries o, e.process ≠ inv.process := by
    intro e he
    obtain ⟨k, hk⟩ := List.mem_iff_getElem?.mp he
    have hlt := (List.getElem?_eq_some_iff.mp hk).1
    rw [between, List.getElem?_drop] at hk
    rw [between, List.length_drop, List.length_take] at hlt
    rw [List.getElem?_take_of_lt (by omega)] at hk
    exact h.adjacent _ e (by omega) (by omega) hk
  obtain ⟨hcompletions, hinvokes⟩ := counts_eq_zero hothers
  exact ⟨h.invoke_entry, h.completion_entry, h.invoke_kind, h.completion_kind, h.process_eq,
    h.invoke_lt, contained_of_forall_ne hothers, hcompletions.trans hinvokes.symm⟩

/-- On an alternating history a completion closes the Invoke before it, with no entry of their
process between. -/
theorem Alternates.closes_iff {entries : List OpEntry} (h : Alternates entries) (o : Operation)
    (inv c : OpEntry) : Closes entries o inv c ↔ Completes entries o inv c := by
  refine ⟨fun hcloses ↦ ?_, Completes.closes⟩
  obtain ⟨i, inv', hcompletes⟩ := h.exists_invoke hcloses.completion_entry hcloses.completion_kind
  have hsame := hcompletes.closes.invoke_unique hcloses rfl
  rw [hsame] at hcompletes
  obtain rfl : inv' = inv :=
    Option.some.inj (hcompletes.invoke_entry.symm.trans hcloses.invoke_entry)
  exact hcompletes

end Propsim.Interchange
