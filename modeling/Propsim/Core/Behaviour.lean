import Propsim.Core.Node

/-!
# What a callback does

The part of a callback that others can see: the messages that it sends, the timers that it arms and
the operations that it completes, in order. What the clock and the generator answer is not known to
the author of a node, so a callback has one behaviour for each of the answers (`Yields`).
-/

set_option autoImplicit false
set_option relaxedAutoImplicit false

namespace Propsim.Core

open Foundation

variable {Msg Timer Response α : Type}

/-- An effect of a callback that others can see. A broadcast is a message to each peer. -/
inductive Emission (Msg Timer Response : Type)
  | send (recipient : NodeId) (msg : Msg)
  | setTimer (timer : Timer) (after : Duration)
  | completeOp (token : OpToken) (completion : Completion Response)

/-- A callback of node `me`, with its peers, can make these emissions and return this result,
whatever the clock and the generator answer. -/
inductive Yields (me : NodeId) (peers : List NodeId) :
    Effects Msg Timer Response α → List (Emission Msg Timer Response) → α → Prop
  | done (result : α) : Yields me peers (.done result) [] result
  | send {recipient : NodeId} {msg : Msg} {next : Effects Msg Timer Response α}
      {out : List (Emission Msg Timer Response)} {result : α}
      (h : Yields me peers next out result) :
      Yields me peers (.send recipient msg next) (.send recipient msg :: out) result
  | broadcast {msg : Msg} {next : Effects Msg Timer Response α}
      {out : List (Emission Msg Timer Response)} {result : α}
      (h : Yields me peers next out result) :
      Yields me peers (.broadcast msg next) (peers.map (.send · msg) ++ out) result
  | setTimer {timer : Timer} {after : Duration} {next : Effects Msg Timer Response α}
      {out : List (Emission Msg Timer Response)} {result : α}
      (h : Yields me peers next out result) :
      Yields me peers (.setTimer timer after next) (.setTimer timer after :: out) result
  | cancelTimer {timer : Timer} {next : Effects Msg Timer Response α}
      {out : List (Emission Msg Timer Response)} {result : α}
      (h : Yields me peers next out result) :
      Yields me peers (.cancelTimer timer next) out result
  | now (t : Duration) {next : Duration → Effects Msg Timer Response α}
      {out : List (Emission Msg Timer Response)} {result : α}
      (h : Yields me peers (next t) out result) : Yields me peers (.now next) out result
  | nextU64 (z : UInt64) {next : UInt64 → Effects Msg Timer Response α}
      {out : List (Emission Msg Timer Response)} {result : α}
      (h : Yields me peers (next z) out result) : Yields me peers (.nextU64 next) out result
  | me {next : NodeId → Effects Msg Timer Response α}
      {out : List (Emission Msg Timer Response)} {result : α}
      (h : Yields me peers (next me) out result) : Yields me peers (.me next) out result
  | completeOp {token : OpToken} {completion : Completion Response}
      {next : Effects Msg Timer Response α} {out : List (Emission Msg Timer Response)} {result : α}
      (h : Yields me peers next out result) :
      Yields me peers (.completeOp token completion next) (.completeOp token completion :: out)
        result

section Inversion

variable {me : NodeId} {peers : List NodeId} {out : List (Emission Msg Timer Response)} {result : α}
  {next : Effects Msg Timer Response α}

@[simp]
theorem yields_done_iff {a : α} :
    Yields me peers (.done a : Effects Msg Timer Response α) out result ↔
      out = [] ∧ result = a := by
  constructor
  · rintro ⟨⟩
    exact ⟨rfl, rfl⟩
  · rintro ⟨rfl, rfl⟩
    exact .done _

@[simp]
theorem yields_send_iff {recipient : NodeId} {msg : Msg} :
    Yields me peers (.send recipient msg next) out result ↔
      ∃ rest, Yields me peers next rest result ∧ out = .send recipient msg :: rest := by
  constructor
  · rintro ⟨⟩
    exact ⟨_, ‹_›, rfl⟩
  · rintro ⟨rest, h, rfl⟩
    exact .send h

@[simp]
theorem yields_broadcast_iff {msg : Msg} :
    Yields me peers (.broadcast msg next) out result ↔
      ∃ rest, Yields me peers next rest result ∧ out = peers.map (.send · msg) ++ rest := by
  constructor
  · rintro ⟨⟩
    exact ⟨_, ‹_›, rfl⟩
  · rintro ⟨rest, h, rfl⟩
    exact .broadcast h

@[simp]
theorem yields_setTimer_iff {timer : Timer} {after : Duration} :
    Yields me peers (.setTimer timer after next) out result ↔
      ∃ rest, Yields me peers next rest result ∧ out = .setTimer timer after :: rest := by
  constructor
  · rintro ⟨⟩
    exact ⟨_, ‹_›, rfl⟩
  · rintro ⟨rest, h, rfl⟩
    exact .setTimer h

@[simp]
theorem yields_nextU64_iff {next : UInt64 → Effects Msg Timer Response α} :
    Yields me peers (.nextU64 next) out result ↔ ∃ z, Yields me peers (next z) out result := by
  constructor
  · rintro ⟨⟩
    exact ⟨_, ‹_›⟩
  · rintro ⟨z, h⟩
    exact .nextU64 z h

@[simp]
theorem yields_me_iff {next : NodeId → Effects Msg Timer Response α} :
    Yields me peers (.me next) out result ↔ Yields me peers (next me) out result := by
  constructor
  · rintro ⟨⟩
    assumption
  · exact .me

@[simp]
theorem yields_completeOp_iff {token : OpToken} {completion : Completion Response} :
    Yields me peers (.completeOp token completion next) out result ↔
      ∃ rest, Yields me peers next rest result ∧ out = .completeOp token completion :: rest := by
  constructor
  · rintro ⟨⟩
    exact ⟨_, ‹_›, rfl⟩
  · rintro ⟨rest, h, rfl⟩
    exact .completeOp h

end Inversion

/-! ### Drawing a duration -/

/-- Draws a duration in a range of milliseconds. An empty range yields its start. -/
def Effects.durationMs (start stop : UInt64) (next : Duration → Effects Msg Timer Response α) :
    Effects Msg Timer Response α :=
  if stop ≤ start then next (.fromMillis start)
  else .nextU64 fun z ↦ next (.fromMillis (start + z % (stop - start)))

theorem Effects.durationMs_eq {start stop : UInt64} (h : start < stop)
    (next : Duration → Effects Msg Timer Response α) :
    Effects.durationMs start stop next =
      .nextU64 fun z ↦ next (.fromMillis (start + z % (stop - start))) :=
  if_neg (UInt64.not_le.mpr h)

@[simp]
theorem yields_durationMs_iff {me : NodeId} {peers : List NodeId}
    {out : List (Emission Msg Timer Response)} {result : α} {start stop : UInt64}
    (h : start < stop) {next : Duration → Effects Msg Timer Response α} :
    Yields me peers (.durationMs start stop next) out result ↔
      ∃ z, Yields me peers (next (.fromMillis (start + z % (stop - start)))) out result := by
  rw [Effects.durationMs_eq h, yields_nextU64_iff]

/-- A drawn duration is in its range. -/
theorem nanos_durationMs {start stop : UInt64} (h : start < stop) (z : UInt64) :
    (Duration.fromMillis start).nanos ≤
        (Duration.fromMillis (start + z % (stop - start))).nanos ∧
      (Duration.fromMillis (start + z % (stop - start))).nanos + 1000000 ≤
        (Duration.fromMillis stop).nanos := by
  rw [UInt64.lt_iff_toNat_lt] at h
  have hspan : (stop - start).toNat = stop.toNat - start.toNat :=
    UInt64.toNat_sub_of_le _ _ (UInt64.le_iff_toNat_le.mpr h.le)
  have hmod : z.toNat % (stop.toNat - start.toNat) < stop.toNat - start.toNat :=
    Nat.mod_lt _ (by omega)
  have hstop := stop.toNat_lt
  have hpick : (start + z % (stop - start)).toNat =
      start.toNat + z.toNat % (stop.toNat - start.toNat) := by
    rw [UInt64.toNat_add, UInt64.toNat_mod, hspan, Nat.mod_eq_of_lt (by omega)]
  simp only [Duration.nanos_fromMillis, hpick]
  omega

section Run

variable {σ ε : Type} {cx : Ctx Msg Timer Response σ ε} {peers : List NodeId}

theorem run_broadcast_eq_ok {msg : Msg} {next : Effects Msg Timer Response α} {s : σ} {r : α × σ} :
    (Effects.broadcast msg next).run cx s = .ok r ↔
      ∃ s', cx.broadcast msg s = .ok s' ∧ next.run cx s' = .ok r := by
  rw [Effects.run]
  cases cx.broadcast msg s <;> simp

theorem run_setTimer_eq_ok {timer : Timer} {after : Duration}
    {next : Effects Msg Timer Response α} {s : σ} {r : α × σ} :
    (Effects.setTimer timer after next).run cx s = .ok r ↔
      ∃ s', cx.setTimer timer after s = .ok s' ∧ next.run cx s' = .ok r := by
  rw [Effects.run]
  cases cx.setTimer timer after s <;> simp

theorem run_nextU64_eq_ok {next : UInt64 → Effects Msg Timer Response α} {s : σ} {r : α × σ} :
    (Effects.nextU64 next).run cx s = .ok r ↔
      (next (cx.nextU64 s).1).run cx (cx.nextU64 s).2 = .ok r := by
  rw [Effects.run]

theorem run_me_eq_ok {next : NodeId → Effects Msg Timer Response α} {s : σ} {r : α × σ} :
    (Effects.me next).run cx s = .ok r ↔ (next cx.me).run cx s = .ok r := by
  rw [Effects.run]

theorem run_done_eq_ok {a : α} {s : σ} {r : α × σ} :
    (Effects.done a : Effects Msg Timer Response α).run cx s = .ok r ↔ r = (a, s) := by
  rw [Effects.run, Except.ok.injEq, eq_comm]

/-- A relation of what a callback emitted so far and the state, which every effect of a context
extends, relates what the whole callback emits to the state that it leaves. The induction is on the
effects. -/
theorem Effects.run_yields {R : List (Emission Msg Timer Response) → σ → Prop}
    (hsend : ∀ recipient msg out s s', R out s → cx.send recipient msg s = .ok s' →
      R (out ++ [.send recipient msg]) s')
    (hbroadcast : ∀ msg out s s', R out s → cx.broadcast msg s = .ok s' →
      R (out ++ peers.map (.send · msg)) s')
    (hsetTimer : ∀ timer after out s s', R out s → cx.setTimer timer after s = .ok s' →
      R (out ++ [.setTimer timer after]) s')
    (hcancelTimer : ∀ timer out s, R out s → R out (cx.cancelTimer timer s))
    (hnextU64 : ∀ out s, R out s → R out (cx.nextU64 s).2)
    (hcompleteOp : ∀ token completion out s, R out s →
      R (out ++ [.completeOp token completion]) (cx.completeOp token completion s))
    {effects : Effects Msg Timer Response α} {before : List (Emission Msg Timer Response)}
    {s s' : σ} {a : α} (hbefore : R before s) (h : effects.run cx s = .ok (a, s')) :
    ∃ out, Yields cx.me peers effects out a ∧ R (before ++ out) s' := by
  induction effects generalizing before s with
  | done result =>
    obtain ⟨rfl, rfl⟩ := Prod.mk.inj (Except.ok.inj h)
    exact ⟨[], .done _, by rwa [List.append_nil]⟩
  | send recipient msg next ih =>
    rw [Effects.run] at h
    split at h
    · cases h
    · rename_i mid hmid
      obtain ⟨out, hyields, hR⟩ := ih (hsend _ _ _ _ _ hbefore hmid) h
      exact ⟨_, .send hyields, by rwa [List.append_assoc] at hR⟩
  | broadcast msg next ih =>
    rw [Effects.run] at h
    split at h
    · cases h
    · rename_i mid hmid
      obtain ⟨out, hyields, hR⟩ := ih (hbroadcast _ _ _ _ hbefore hmid) h
      exact ⟨_, .broadcast hyields, by rwa [List.append_assoc] at hR⟩
  | setTimer timer after next ih =>
    rw [Effects.run] at h
    split at h
    · cases h
    · rename_i mid hmid
      obtain ⟨out, hyields, hR⟩ := ih (hsetTimer _ _ _ _ _ hbefore hmid) h
      exact ⟨_, .setTimer hyields, by rwa [List.append_assoc] at hR⟩
  | cancelTimer timer next ih =>
    obtain ⟨out, hyields, hR⟩ := ih (hcancelTimer _ _ _ hbefore) h
    exact ⟨out, .cancelTimer hyields, hR⟩
  | now next ih =>
    obtain ⟨out, hyields, hR⟩ := ih _ hbefore h
    exact ⟨out, .now _ hyields, hR⟩
  | nextU64 next ih =>
    obtain ⟨out, hyields, hR⟩ := ih _ (hnextU64 _ _ hbefore) h
    exact ⟨out, .nextU64 _ hyields, hR⟩
  | me next ih =>
    obtain ⟨out, hyields, hR⟩ := ih _ hbefore h
    exact ⟨out, .me hyields, hR⟩
  | completeOp token completion next ih =>
    obtain ⟨out, hyields, hR⟩ := ih (hcompleteOp _ _ _ _ hbefore) h
    exact ⟨_, .completeOp hyields, by rwa [List.append_assoc] at hR⟩

end Run

end Propsim.Core
