import Propsim.Simulator.Execution
import Mathlib.Logic.Relation

/-!
# What a turn can do to the scheduler core

Node code reaches the core through its context only, so every callback is a sequence of three kinds
of steps: a quiet change of the random state, the timer generations and the link floors; a new
event that is not before the current time; and the closing of an operation (`run_steps`). Every
invariant of the core is proved once for a `CoreStep` and holds after a callback by
`CoreSteps.invariant`, however the node behaves.
-/

set_option autoImplicit false
set_option relaxedAutoImplicit false

namespace Propsim.Simulator

open Foundation Interchange Propsim.Core

variable {N : Node}

/-- An event that a callback can schedule: a delivery or a timer. -/
def EventKind.IsEffect : EventKind N → Prop
  | .deliver _ _ _ => True
  | .timer _ _ _ => True
  | .clientOp _ _ => False
  | .fault _ => False

/-- One thing that a callback can do to the core. -/
inductive CoreStep : SchedCore N → SchedCore N → Prop
  | quiet (core : SchedCore N) (rng : SimRng) (timerGen : UInt64 × String → ℕ)
      (lastLink : UInt64 × UInt64 → Duration) :
      CoreStep core { core with rng := rng, timerGen := timerGen, lastLink := lastLink }
  | enqueue (core : SchedCore N) (fireAt : Duration) (kind : EventKind N)
      (hlater : core.now ≤ fireAt) (hkind : kind.IsEffect) :
      CoreStep core (core.enqueue fireAt kind)
  | close (core : SchedCore N) (token : OpToken) {kind : OpKind} (value : Value)
      (hkind : kind ≠ .invoke) : CoreStep core (core.closeOp token kind value)

/-- Any number of core steps. -/
def CoreSteps : SchedCore N → SchedCore N → Prop := Relation.ReflTransGen CoreStep

/-- What every core step preserves, every sequence of them does. -/
theorem CoreSteps.invariant {P : SchedCore N → Prop}
    (hstep : ∀ core core', P core → CoreStep core core' → P core') {core core' : SchedCore N}
    (h : CoreSteps core core') (hcore : P core) : P core' := by
  induction h with
  | refl => exact hcore
  | tail _ hlast ih => exact hstep _ _ ih hlast

theorem CoreSteps.refl (core : SchedCore N) : CoreSteps core core := Relation.ReflTransGen.refl

theorem CoreSteps.trans {a b c : SchedCore N} (h : CoreSteps a b) (h' : CoreSteps b c) :
    CoreSteps a c := Relation.ReflTransGen.trans h h'

theorem CoreStep.steps {a b : SchedCore N} (h : CoreStep a b) : CoreSteps a b :=
  Relation.ReflTransGen.single h

/-! ### What the steps leave alone -/

/-- Closing an operation changes the history and the open operations only. -/
theorem closeOp_frame (core : SchedCore N) (token : OpToken) (kind : OpKind) (value : Value) :
    ∃ history pendingOps, core.closeOp token kind value =
      { core with history := history, pendingOps := pendingOps } := by
  unfold SchedCore.closeOp
  split
  · exact ⟨core.history, core.pendingOps, rfl⟩
  · exact ⟨_, _, rfl⟩

theorem closeAll_frame (core : SchedCore N) (tokens : List ℕ) :
    ∃ history pendingOps, core.closeAll tokens =
      { core with history := history, pendingOps := pendingOps } := by
  induction tokens generalizing core with
  | nil => exact ⟨core.history, core.pendingOps, rfl⟩
  | cons token rest ih =>
    obtain ⟨_, _, hclose⟩ := closeOp_frame core ⟨token⟩ .info .nil
    obtain ⟨history, pendingOps, hrest⟩ := ih (core.closeOp ⟨token⟩ .info .nil)
    refine ⟨history, pendingOps, hrest.trans ?_⟩
    rw [hclose]

/-- A crash changes the crashed set, the history and the open operations only. -/
theorem applyFault_crash (core : SchedCore N) (n : NodeId) :
    ∃ history pendingOps, (core.applyFault (.crash n)).2 =
      { core with
        crashed := if n ∈ core.crashed then core.crashed else core.crashed ++ [n]
        history := history
        pendingOps := pendingOps } := by
  obtain ⟨history, pendingOps, hclose⟩ := closeAll_frame
    (if n ∈ core.crashed then core else { core with crashed := core.crashed ++ [n] })
    (((if n ∈ core.crashed then core else { core with crashed := core.crashed ++ [n] }).pendingOps
      |>.filter fun entry ↦ entry.2.process = ⟨n.id⟩).map (·.1))
  refine ⟨history, pendingOps, hclose.trans ?_⟩
  split_ifs <;> rfl

/-- Two cores agree in the clock, the network, the state of the cluster and the run events. -/
structure SameCluster (core core' : SchedCore N) : Prop where
  now_eq : core'.now = core.now
  model_eq : core'.model = core.model
  partitions_eq : core'.partitions = core.partitions
  crashed_eq : core'.crashed = core.crashed
  events_eq : core'.events = core.events

theorem SameCluster.refl (core : SchedCore N) : SameCluster core core := ⟨rfl, rfl, rfl, rfl, rfl⟩

theorem SameCluster.trans {a b c : SchedCore N} (h : SameCluster a b) (h' : SameCluster b c) :
    SameCluster a c :=
  ⟨h'.now_eq.trans h.now_eq, h'.model_eq.trans h.model_eq, h'.partitions_eq.trans h.partitions_eq,
    h'.crashed_eq.trans h.crashed_eq, h'.events_eq.trans h.events_eq⟩

theorem CoreSteps.sameCluster {core core' : SchedCore N} (h : CoreSteps core core') :
    SameCluster core core' := by
  refine h.invariant (fun c c' hc hstep ↦ hc.trans ?_) (.refl core)
  cases hstep with
  | quiet => exact ⟨rfl, rfl, rfl, rfl, rfl⟩
  | enqueue => exact ⟨rfl, rfl, rfl, rfl, rfl⟩
  | close token value _ =>
    obtain ⟨history, pendingOps, hclose⟩ := closeOp_frame c token _ value
    rw [hclose]
    exact ⟨rfl, rfl, rfl, rfl, rfl⟩

/-! ### The effects -/

theorem nanos_of_addDuration {a b c : Duration} (h : addDuration a b = .ok c) :
    c.nanos = a.nanos + b.nanos := by
  unfold addDuration at h
  split at h
  · rename_i sum hsum
    obtain rfl := Except.ok.inj h
    exact Duration.checkedAdd_eq_some_iff.mp hsum
  · cases h

/-- A sum of durations is not before its first summand. -/
theorem le_of_addDuration {a b c : Duration} (h : addDuration a b = .ok c) : a ≤ c := by
  rw [Duration.le_iff, nanos_of_addDuration h]
  exact Nat.le_add_right _ _

theorem roll_steps (core : SchedCore N) (p : Prob) : CoreSteps core (core.roll p).2 :=
  (CoreStep.quiet core (core.rng.chance p.value).2 core.timerGen core.lastLink).steps

theorem sampleDelay_steps (core : SchedCore N) : CoreSteps core core.sampleDelay.2 :=
  (CoreStep.quiet core _ core.timerGen core.lastLink).steps

theorem floorDelivery_steps (core : SchedCore N) (sender recipient : NodeId) (fireAt : Duration) :
    CoreSteps core (core.floorDelivery sender recipient fireAt).2 ∧
      fireAt ≤ (core.floorDelivery sender recipient fireAt).1 := by
  unfold SchedCore.floorDelivery
  split_ifs
  · exact ⟨(CoreStep.quiet core core.rng core.timerGen _).steps, le_max_left _ _⟩
  · exact ⟨.refl core, le_rfl⟩

theorem scheduleDelivery_steps {core core' : SchedCore N} {sender recipient : NodeId}
    {msg : N.Msg} (h : core.scheduleDelivery sender recipient msg = .ok core') :
    CoreSteps core core' := by
  unfold SchedCore.scheduleDelivery at h
  split at h
  · obtain rfl := Except.ok.inj h
    exact .refl core
  split at h
  rename_i lost afterLoss hroll
  have hloss : CoreSteps core afterLoss := by
    simpa only [hroll] using roll_steps core core.model.loss
  split at h
  · obtain rfl := Except.ok.inj h
    exact hloss
  split at h
  rename_i base afterDelay hsample
  have hdelay : CoreSteps afterLoss afterDelay := by
    simpa only [hsample] using sampleDelay_steps afterLoss
  split at h
  · simp at h
  rename_i sampled hsum
  split at h
  rename_i floored afterFloor hfloored
  obtain ⟨hfloor, hle⟩ := floorDelivery_steps afterDelay sender recipient sampled
  rw [hfloored] at hfloor hle
  split at h
  rename_i dup afterDup hrollDup
  have hdup : CoreSteps afterFloor afterDup := by
    simpa only [hrollDup] using roll_steps afterFloor afterFloor.model.duplicate
  have hnow : afterDup.now ≤ floored := by
    rw [hdup.sameCluster.now_eq, hfloor.sameCluster.now_eq]
    exact (le_of_addDuration hsum).trans hle
  have hbefore : CoreSteps core afterDup := (hloss.trans hdelay).trans (hfloor.trans hdup)
  have hfirst := CoreStep.enqueue afterDup floored (.deliver sender recipient msg) hnow trivial
  obtain rfl := Except.ok.inj h
  cases dup with
  | false => exact hbefore.trans hfirst.steps
  | true =>
    have hsecond := CoreStep.enqueue (afterDup.enqueue floored (.deliver sender recipient msg))
      floored (.deliver sender recipient msg) hnow trivial
    exact (hbefore.trans hfirst.steps).trans hsecond.steps

theorem cancelTimer_steps (core : SchedCore N) (node : NodeId) (timer : N.Timer) :
    CoreSteps core (core.cancelTimer node timer) :=
  (CoreStep.quiet core core.rng _ core.lastLink).steps

theorem armTimer_steps {core core' : SchedCore N} {node : NodeId} {timer : N.Timer}
    {after : Duration} (h : core.armTimer node timer after = .ok core') :
    CoreSteps core core' := by
  unfold SchedCore.armTimer at h
  simp only at h
  split at h
  · simp at h
  · rename_i fireAt hsum
    obtain rfl := Except.ok.inj h
    exact (cancelTimer_steps core node timer).trans
      (CoreStep.enqueue _ fireAt (.timer node timer _) (le_of_addDuration hsum) trivial).steps

theorem completeOp_steps (codec : Option (ClientCodec N)) (core : SchedCore N) (token : OpToken)
    (completion : Completion N.Response) :
    CoreSteps core (completeOp codec core token completion) := by
  cases completion with
  | ok response => exact (CoreStep.close core token _ (by decide)).steps
  | fail => exact (CoreStep.close core token _ (by decide)).steps
  | info => exact (CoreStep.close core token _ (by decide)).steps

theorem broadcast_steps {codec : Option (ClientCodec N)} {me : NodeId} {msg : N.Msg}
    {core core' : SchedCore N} (h : (harnessCtx codec me).broadcast msg core = .ok core') :
    CoreSteps core core' :=
  foldlM_invariant (P := fun c ↦ CoreSteps core c)
    (fun _ _ _ _ hc hpeer ↦ hc.trans (scheduleDelivery_steps hpeer)) (.refl core) h

/-- A callback is a sequence of core steps. -/
theorem run_steps {codec : Option (ClientCodec N)} {me : NodeId} {α : Type}
    {effects : Effects N.Msg N.Timer N.Response α} {core core' : SchedCore N} {a : α}
    (h : effects.run (harnessCtx codec me) core = .ok (a, core')) : CoreSteps core core' := by
  exact Effects.run_rel CoreSteps.refl (fun _ _ _ ↦ CoreSteps.trans)
    (fun recipient msg s s' ↦ scheduleDelivery_steps) (fun msg s s' ↦ broadcast_steps)
    (fun timer after s s' ↦ armTimer_steps) (fun timer s ↦ cancelTimer_steps s me timer)
    (fun s ↦ (CoreStep.quiet s _ s.timerGen s.lastLink).steps)
    (fun token completion s ↦ completeOp_steps codec s token completion) h

/-! ### Resolving an event -/

/-- What resolving an event of each kind does: a stale timer, and a timer or a message of a crashed
node, is skipped; a fault is applied; nothing else but the clock changes. -/
inductive Resolves (core : SchedCore N) (event : Scheduled N) :
    Option (PoppedEvent N) → SchedCore N → Prop
  | skipped (hclient : ∀ process index, event.kind ≠ .clientOp process index)
      (hfault : ∀ action, event.kind ≠ .fault action) :
      Resolves core event none { core with now := event.fireAt }
  | deliver {sender recipient : NodeId} {msg : N.Msg}
      (hkind : event.kind = .deliver sender recipient msg) (halive : recipient ∉ core.crashed) :
      Resolves core event (some (.deliver sender recipient msg))
        { core with now := event.fireAt }
  | timer {node : NodeId} {timer : N.Timer} {gen : ℕ} (hkind : event.kind = .timer node timer gen)
      (hcurrent : core.timerIsCurrent node timer gen = true) (halive : node ∉ core.crashed) :
      Resolves core event (some (.timer node timer)) { core with now := event.fireAt }
  | clientOp {process : NodeId} {index : ℕ} (hkind : event.kind = .clientOp process index) :
      Resolves core event (some (.clientOp process index)) { core with now := event.fireAt }
  | fault {action : FaultAction} (hkind : event.kind = .fault action) :
      Resolves core event
        (some (.fault (SchedCore.applyFault { core with now := event.fireAt } action).1))
        (SchedCore.applyFault { core with now := event.fireAt } action).2

theorem resolves_of_resolve {core core' : SchedCore N} {event : Scheduled N}
    {popped : Option (PoppedEvent N)} (h : core.resolve event = (popped, core')) :
    Resolves core event popped core' := by
  unfold SchedCore.resolve at h
  cases hkind : event.kind with
  | deliver sender recipient msg =>
    simp only [hkind] at h
    split_ifs at h with hcrashed
    · obtain ⟨rfl, rfl⟩ := Prod.mk.inj h
      exact .skipped (by simp [hkind]) (by simp [hkind])
    · obtain ⟨rfl, rfl⟩ := Prod.mk.inj h
      exact .deliver hkind hcrashed
  | timer node timer gen =>
    simp only [hkind] at h
    split_ifs at h with hfires
    · obtain ⟨rfl, rfl⟩ := Prod.mk.inj h
      exact .timer hkind hfires.1 hfires.2
    · obtain ⟨rfl, rfl⟩ := Prod.mk.inj h
      exact .skipped (by simp [hkind]) (by simp [hkind])
  | clientOp process index =>
    simp only [hkind] at h
    obtain ⟨rfl, rfl⟩ := Prod.mk.inj h
    exact .clientOp hkind
  | fault action =>
    simp only [hkind] at h
    obtain ⟨rfl, rfl⟩ := Prod.mk.inj h
    exact .fault hkind

/-! ### The dispatch -/

/-- What running a callback does: core steps, and a change of the node's own slot only. -/
theorem runCallback_eq_ok {codec : Option (ClientCodec N)} {core core' : SchedCore N}
    {nodes nodes' : List (Option N.State)} {id : NodeId}
    {callback : N.State → Effects N.Msg N.Timer N.Response N.State}
    (h : runCallback codec core nodes id callback = .ok (core', nodes')) :
    CoreSteps core core' ∧
      ((nodes[id.id.toNat]? = some none ∧ nodes' = nodes) ∨
        ∃ node node', nodes[id.id.toNat]? = some (some node) ∧
          (callback node).run (harnessCtx codec id) core = .ok (node', core') ∧
          nodes' = nodes.set id.id.toNat (some node')) := by
  unfold runCallback at h
  split at h
  · simp at h
  · rename_i hslot
    obtain ⟨rfl, rfl⟩ := Prod.mk.inj (Except.ok.inj h)
    exact ⟨.refl core, Or.inl ⟨hslot, rfl⟩⟩
  · rename_i node hslot
    split at h
    · simp at h
    · rename_i node' after hrun
      obtain ⟨rfl, rfl⟩ := Prod.mk.inj (Except.ok.inj h)
      exact ⟨run_steps hrun, Or.inr ⟨node, node', hslot, hrun, rfl⟩⟩

/-- Dispatching a client operation opens it and goes on with core steps. -/
theorem dispatchClientOp_steps {codec : Option (ClientCodec N)} {core core' : SchedCore N}
    {nodes nodes' : List (Option N.State)} {process : NodeId} {op : FrozenOp}
    (h : dispatchClientOp codec core nodes process op = .ok (core', nodes')) :
    ∃ f, CoreSteps (core.openOp ⟨process.id⟩ f op.op).2 core' := by
  unfold dispatchClientOp at h
  simp only at h
  split at h
  · obtain ⟨rfl, -⟩ := Prod.mk.inj (Except.ok.inj h)
    exact ⟨opFunction op, (CoreStep.close _ _ _ (by decide)).steps⟩
  · rename_i f typedOp hdecode
    refine ⟨f, ?_⟩
    split at h
    · simp at h
    · obtain ⟨rfl, -⟩ := Prod.mk.inj (Except.ok.inj h)
      exact (CoreStep.close _ _ _ (by decide)).steps
    · split at h
      · simp at h
      · rename_i node' outcome after hrun
        refine (run_steps hrun).trans ?_
        split at h
        · obtain ⟨rfl, -⟩ := Prod.mk.inj (Except.ok.inj h)
          exact (CoreStep.close _ _ _ (by decide)).steps
        · obtain ⟨rfl, -⟩ := Prod.mk.inj (Except.ok.inj h)
          exact .refl _

/-- What dispatching an event does to the core: a client operation is opened first, and everything
else is core steps. -/
theorem dispatch_steps {codec : Option (ClientCodec N)} {ops : List FrozenOp}
    {core core' : SchedCore N} {nodes nodes' : List (Option N.State)} {popped : PoppedEvent N}
    (h : dispatch codec ops core nodes popped = .ok (core', nodes')) :
    CoreSteps core core' ∧ (∀ process index, popped ≠ .clientOp process index) ∨
      ∃ process index op f, popped = .clientOp process index ∧ ops[index]? = some op ∧
        CoreSteps (core.openOp ⟨process.id⟩ f op.op).2 core' := by
  cases popped with
  | deliver sender recipient msg => exact Or.inl ⟨(runCallback_eq_ok h).1, by simp⟩
  | timer node timer => exact Or.inl ⟨(runCallback_eq_ok h).1, by simp⟩
  | clientOp process index =>
    simp only [dispatch] at h
    split at h
    · simp at h
    · rename_i op hop
      obtain ⟨f, hsteps⟩ := dispatchClientOp_steps h
      exact Or.inr ⟨process, index, op, f, rfl, hop, hsteps⟩
  | fault rejoined =>
    cases rejoined with
    | none =>
      obtain ⟨rfl, -⟩ := Prod.mk.inj (Except.ok.inj h)
      exact Or.inl ⟨.refl _, by simp⟩
    | some n => exact Or.inl ⟨(runCallback_eq_ok h).1, by simp⟩

/-! ### The pump -/

/-- What pumping a process does: nothing while one of its operations is in flight or when it has
none left, and else its next operation is scheduled. -/
inductive Pumps (state : RunState N) (p : ℕ) : RunState N → Prop
  | busy (hbusy : state.core.closedFor ⟨.ofNat p⟩ < state.scheduled p) : Pumps state p state
  | drained (hfree : ¬ state.core.closedFor ⟨.ofNat p⟩ < state.scheduled p)
      (hstream : state.perProcess p = []) : Pumps state p state
  | issue {index : ℕ} {rest : List ℕ} {fireAt : Duration}
      (hfree : ¬ state.core.closedFor ⟨.ofNat p⟩ < state.scheduled p)
      (hstream : state.perProcess p = index :: rest)
      (hsum : addDuration state.core.now (.fromMillis 1) = .ok fireAt) :
      Pumps state p { state with
        perProcess := Function.update state.perProcess p rest
        scheduled := Function.update state.scheduled p (state.scheduled p + 1)
        core := state.core.scheduleClientOp fireAt ⟨.ofNat p⟩ index }

theorem pumps_of_pumpProcess {state next : RunState N} {p : ℕ}
    (h : pumpProcess state p = .ok next) : Pumps state p next := by
  unfold pumpProcess at h
  split at h
  · rename_i hbusy
    exact Except.ok.inj h ▸ .busy hbusy
  rename_i hfree
  split at h
  · rename_i hstream
    exact Except.ok.inj h ▸ .drained hfree hstream
  rename_i index rest hstream
  split at h
  · simp at h
  rename_i fireAt hsum
  exact Except.ok.inj h ▸ .issue hfree hstream hsum

end Propsim.Simulator
