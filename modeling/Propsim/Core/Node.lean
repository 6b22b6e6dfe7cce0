import Propsim.Foundation.Duration
import Propsim.Foundation.Fallible
import Propsim.Interchange.Operation

/-!
# Nodes and their effects

`node.rs`: the state-machine seam. A callback reaches the world only through its context, so it is
modelled by the tree of the effects it asks for: each effect carries the rest of the callback, and
where the context answers (the clock, a random number, the node's own id) the rest is a function of
the answer. `Effects.run` runs a callback in a context. A node is a bundle of callbacks over its own
types. The `Debug` form of a timer, on which the scheduler keys its timers, is part of the bundle.
-/

set_option autoImplicit false
set_option relaxedAutoImplicit false

namespace Propsim.Core

open Foundation Interchange

/-- A node's identity within the cluster. -/
structure NodeId where
  id : UInt64
  deriving DecidableEq, Repr

theorem NodeId.eq_of_toNat_eq {a b : NodeId} (h : a.id.toNat = b.id.toNat) : a = b := by
  cases a
  cases b
  simpa [UInt64.toNat_inj] using h

/-- An opaque identity of one in-flight client operation. -/
structure OpToken where
  id : ℕ
  deriving DecidableEq, Repr

/-- What a node decided about a freshly-arrived client operation. -/
inductive OpOutcome (Response : Type)
  | done (response : Response)
  | pending

/-- How a pending operation finishes. -/
inductive Completion (Response : Type)
  | ok (response : Response)
  | fail
  | info

/-- A callback: the effects it asks of its context, one after the other, and its result. -/
inductive Effects (Msg Timer Response α : Type)
  | done (result : α)
  | send (recipient : NodeId) (msg : Msg) (next : Effects Msg Timer Response α)
  | broadcast (msg : Msg) (next : Effects Msg Timer Response α)
  | setTimer (timer : Timer) (after : Duration) (next : Effects Msg Timer Response α)
  | cancelTimer (timer : Timer) (next : Effects Msg Timer Response α)
  | now (next : Duration → Effects Msg Timer Response α)
  | nextU64 (next : UInt64 → Effects Msg Timer Response α)
  | me (next : NodeId → Effects Msg Timer Response α)
  | completeOp (token : OpToken) (completion : Completion Response)
      (next : Effects Msg Timer Response α)

/-- The effect surface available to a callback, over the state that the effects act on and the
errors with which they can fail. -/
structure Ctx (Msg Timer Response σ ε : Type) where
  send : NodeId → Msg → σ → Except ε σ
  broadcast : Msg → σ → Except ε σ
  setTimer : Timer → Duration → σ → Except ε σ
  cancelTimer : Timer → σ → σ
  now : σ → Duration
  nextU64 : σ → UInt64 × σ
  me : NodeId
  completeOp : OpToken → Completion Response → σ → σ

/-- Runs a callback in a context. -/
def Effects.run {Msg Timer Response σ ε α : Type} (cx : Ctx Msg Timer Response σ ε) :
    Effects Msg Timer Response α → σ → Except ε (α × σ)
  | .done result, state => .ok (result, state)
  | .send recipient msg next, state =>
    match cx.send recipient msg state with
    | .error e => .error e
    | .ok state => next.run cx state
  | .broadcast msg next, state =>
    match cx.broadcast msg state with
    | .error e => .error e
    | .ok state => next.run cx state
  | .setTimer timer after next, state =>
    match cx.setTimer timer after state with
    | .error e => .error e
    | .ok state => next.run cx state
  | .cancelTimer timer next, state => next.run cx (cx.cancelTimer timer state)
  | .now next, state => (next (cx.now state)).run cx state
  | .nextU64 next, state => (next (cx.nextU64 state).1).run cx (cx.nextU64 state).2
  | .me next, state => (next cx.me).run cx state
  | .completeOp token completion next, state =>
    next.run cx (cx.completeOp token completion state)

/-- A callback of node `me` at time `now` sends to nodes of one kind only and arms timers for spans
of one kind only, whatever it draws. -/
def Effects.Only {Msg Timer Response α : Type} (me : NodeId) (now : Duration)
    (sends : NodeId → Prop) (timers : Duration → Prop) : Effects Msg Timer Response α → Prop
  | .done _ => True
  | .send recipient _ next => sends recipient ∧ next.Only me now sends timers
  | .broadcast _ next => next.Only me now sends timers
  | .setTimer _ after next => timers after ∧ next.Only me now sends timers
  | .cancelTimer _ next => next.Only me now sends timers
  | .now next => (next now).Only me now sends timers
  | .nextU64 next => ∀ z, (next z).Only me now sends timers
  | .me next => (next me).Only me now sends timers
  | .completeOp _ _ next => next.Only me now sends timers

section Run

variable {Msg Timer Response σ ε α : Type} {cx : Ctx Msg Timer Response σ ε}

/-- A reflexive and transitive relation that contains every effect of a context contains every
callback, by induction on its effects. -/
theorem Effects.run_rel {R : σ → σ → Prop} (hrefl : ∀ s, R s s)
    (htrans : ∀ a b c, R a b → R b c → R a c)
    (hsend : ∀ recipient msg s s', cx.send recipient msg s = .ok s' → R s s')
    (hbroadcast : ∀ msg s s', cx.broadcast msg s = .ok s' → R s s')
    (hsetTimer : ∀ timer after s s', cx.setTimer timer after s = .ok s' → R s s')
    (hcancelTimer : ∀ timer s, R s (cx.cancelTimer timer s))
    (hnextU64 : ∀ s, R s (cx.nextU64 s).2)
    (hcompleteOp : ∀ token completion s, R s (cx.completeOp token completion s))
    {effects : Effects Msg Timer Response α} {s s' : σ} {a : α}
    (h : effects.run cx s = .ok (a, s')) : R s s' := by
  induction effects generalizing s with
  | done result =>
    obtain ⟨-, rfl⟩ := Prod.mk.inj (Except.ok.inj h)
    exact hrefl s
  | send recipient msg next ih =>
    rw [Effects.run] at h
    split at h
    · simp at h
    · rename_i mid hmid
      exact htrans _ _ _ (hsend _ _ _ _ hmid) (ih h)
  | broadcast msg next ih =>
    rw [Effects.run] at h
    split at h
    · simp at h
    · rename_i mid hmid
      exact htrans _ _ _ (hbroadcast _ _ _ hmid) (ih h)
  | setTimer timer after next ih =>
    rw [Effects.run] at h
    split at h
    · simp at h
    · rename_i mid hmid
      exact htrans _ _ _ (hsetTimer _ _ _ _ hmid) (ih h)
  | cancelTimer timer next ih => exact htrans _ _ _ (hcancelTimer timer s) (ih h)
  | now next ih => exact ih _ h
  | nextU64 next ih => exact htrans _ _ _ (hnextU64 s) (ih _ h)
  | me next ih => exact ih _ h
  | completeOp token completion next ih =>
    exact htrans _ _ _ (hcompleteOp token completion s) (ih h)

/-- Two contexts whose effects keep a relation of their states, and answer alike, run every callback
to the same result, by induction on its effects. -/
theorem Effects.run_simulation {σ' : Type} {cx' : Ctx Msg Timer Response σ' ε}
    {R : σ → σ' → Prop}
    (hsend : ∀ recipient msg s s' t, R s s' → cx.send recipient msg s = .ok t →
      ∃ t', cx'.send recipient msg s' = .ok t' ∧ R t t')
    (hbroadcast : ∀ msg s s' t, R s s' → cx.broadcast msg s = .ok t →
      ∃ t', cx'.broadcast msg s' = .ok t' ∧ R t t')
    (hsetTimer : ∀ timer after s s' t, R s s' → cx.setTimer timer after s = .ok t →
      ∃ t', cx'.setTimer timer after s' = .ok t' ∧ R t t')
    (hcancelTimer : ∀ timer s s', R s s' → R (cx.cancelTimer timer s) (cx'.cancelTimer timer s'))
    (hnow : ∀ s s', R s s' → cx'.now s' = cx.now s)
    (hnextU64 : ∀ s s', R s s' →
      (cx'.nextU64 s').1 = (cx.nextU64 s).1 ∧ R (cx.nextU64 s).2 (cx'.nextU64 s').2)
    (hme : cx'.me = cx.me)
    (hcompleteOp : ∀ token completion s s', R s s' →
      R (cx.completeOp token completion s) (cx'.completeOp token completion s'))
    {effects : Effects Msg Timer Response α} {s t : σ} {s' : σ'} {a : α} (hR : R s s')
    (h : effects.run cx s = .ok (a, t)) : ∃ t', effects.run cx' s' = .ok (a, t') ∧ R t t' := by
  induction effects generalizing s s' with
  | done result =>
    obtain ⟨rfl, rfl⟩ := Prod.mk.inj (Except.ok.inj h)
    exact ⟨s', rfl, hR⟩
  | send recipient msg next ih =>
    rw [Effects.run] at h
    split at h
    · simp at h
    · rename_i mid hmid
      obtain ⟨mid', hmid', hrel⟩ := hsend _ _ _ _ _ hR hmid
      obtain ⟨t', hrun, hend⟩ := ih hrel h
      exact ⟨t', by rw [Effects.run, hmid']; exact hrun, hend⟩
  | broadcast msg next ih =>
    rw [Effects.run] at h
    split at h
    · simp at h
    · rename_i mid hmid
      obtain ⟨mid', hmid', hrel⟩ := hbroadcast _ _ _ _ hR hmid
      obtain ⟨t', hrun, hend⟩ := ih hrel h
      exact ⟨t', by rw [Effects.run, hmid']; exact hrun, hend⟩
  | setTimer timer after next ih =>
    rw [Effects.run] at h
    split at h
    · simp at h
    · rename_i mid hmid
      obtain ⟨mid', hmid', hrel⟩ := hsetTimer _ _ _ _ _ hR hmid
      obtain ⟨t', hrun, hend⟩ := ih hrel h
      exact ⟨t', by rw [Effects.run, hmid']; exact hrun, hend⟩
  | cancelTimer timer next ih => exact ih (hcancelTimer timer s s' hR) h
  | now next ih =>
    rw [Effects.run] at h ⊢
    rw [hnow s s' hR]
    exact ih _ hR h
  | nextU64 next ih =>
    obtain ⟨hanswer, hrel⟩ := hnextU64 s s' hR
    rw [Effects.run] at h ⊢
    rw [hanswer]
    exact ih _ hrel h
  | me next ih =>
    rw [Effects.run] at h ⊢
    rw [hme]
    exact ih _ hR h
  | completeOp token completion next ih => exact ih (hcompleteOp token completion s s' hR) h

end Run

/-- A protocol node: a synchronous state machine driven by the harness. -/
structure Node where
  State : Type
  Msg : Type
  Timer : Type
  Op : Type
  Response : Type
  default : State
  /-- The `Debug` form of a timer. -/
  debug : Timer → String
  onStart : State → Effects Msg Timer Response State
  onMsg : State → NodeId → Msg → Effects Msg Timer Response State
  onTimer : State → Timer → Effects Msg Timer Response State
  onClientOp : State → Op → OpToken → Effects Msg Timer Response (State × OpOutcome Response)

/-- The bridge between workload values and a node's typed operations and responses. -/
structure ClientCodec (N : Node) where
  decode : Value → Option (Function × N.Op)
  encodeResponse : Function → N.Response → Value

end Propsim.Core
