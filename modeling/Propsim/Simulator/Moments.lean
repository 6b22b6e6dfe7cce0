import Propsim.Simulator.Gating
import Propsim.Simulator.Network

/-!
# The moments of a run

A run seen call by call: each message that a callback hands to the network, each timer that it sets
or cancels, and each event that the loop takes from the queue is a `Moment`, with the scheduler core
just before it. The moments of an execution are computed from it (`Execution.moments`), following
`ctx.rs` and the main loop. Between two moments the scheduler changes in ways that no message and no
timer notices (`MomentStep`), so a fact about messages or timers is an invariant of the moments so
far and the core, kept by each kind of step (`MomentSteps.invariant`).
-/

set_option autoImplicit false
set_option relaxedAutoImplicit false

namespace Propsim.Simulator

open Foundation Interchange Propsim.Core

variable {N : Node} {codec : Option (ClientCodec N)} {ops : List FrozenOp}

/-! ### Moments -/

/-- What happens at a moment: a message is handed to the network for one recipient, a timer is set
or cancelled, or an event is taken from the queue. -/
inductive Act (N : Node)
  | send (sender recipient : NodeId) (msg : N.Msg)
  | setTimer (node : NodeId) (timer : N.Timer) (after : Duration)
  | cancelTimer (node : NodeId) (timer : N.Timer)
  | take (event : Scheduled N)

/-- A moment of a run, with the scheduler core before it. -/
structure Moment (N : Node) where
  core : SchedCore N
  act : Act N

/-- The moments in which a message is sent to recipients one after the other. -/
def sendMoments (me : NodeId) (msg : N.Msg) : List NodeId → SchedCore N → List (Moment N)
  | [], _ => []
  | peer :: rest, core =>
    ⟨core, .send me peer msg⟩ ::
      match core.scheduleDelivery me peer msg with
      | .error _ => []
      | .ok core => sendMoments me msg rest core

/-- The moments of a callback of node `me`. -/
def effectMoments (codec : Option (ClientCodec N)) (me : NodeId) {α : Type} :
    Effects N.Msg N.Timer N.Response α → SchedCore N → List (Moment N)
  | .done _, _ => []
  | .send recipient msg next, core =>
    ⟨core, .send me recipient msg⟩ ::
      match core.scheduleDelivery me recipient msg with
      | .error _ => []
      | .ok core => effectMoments codec me next core
  | .broadcast msg next, core =>
    sendMoments me msg (core.peers me) core ++
      match (harnessCtx codec me).broadcast msg core with
      | .error _ => []
      | .ok core => effectMoments codec me next core
  | .setTimer timer after next, core =>
    ⟨core, .setTimer me timer after⟩ ::
      match core.armTimer me timer after with
      | .error _ => []
      | .ok core => effectMoments codec me next core
  | .cancelTimer timer next, core =>
    ⟨core, .cancelTimer me timer⟩ :: effectMoments codec me next (core.cancelTimer me timer)
  | .now next, core => effectMoments codec me (next core.now) core
  | .nextU64 next, core => effectMoments codec me (next core.nextU64.1) core.nextU64.2
  | .me next, core => effectMoments codec me (next me) core
  | .completeOp token completion next, core =>
    effectMoments codec me next (completeOp codec core token completion)

/-- The moments of a callback of the node in a slot. -/
def slotMoments (codec : Option (ClientCodec N)) (core : SchedCore N)
    (nodes : List (Option N.State)) (id : NodeId)
    (callback : N.State → Effects N.Msg N.Timer N.Response N.State) : List (Moment N) :=
  match nodes[id.id.toNat]? with
  | some (some node) => effectMoments codec id (callback node) core
  | _ => []

/-- The moments of the dispatch of a client operation. -/
def clientMoments (codec : Option (ClientCodec N)) (core : SchedCore N)
    (nodes : List (Option N.State)) (process : NodeId) (op : FrozenOp) : List (Moment N) :=
  match codec.bind fun c ↦ c.decode op.op with
  | none => []
  | some (f, typedOp) =>
    let (tok, core) := core.openOp ⟨process.id⟩ f op.op
    match nodes[target op process nodes.length]? with
    | some (some node) =>
      effectMoments codec ⟨.ofNat (target op process nodes.length)⟩
        (N.onClientOp node typedOp tok) core
    | _ => []

/-- The moments of the dispatch of a popped event. -/
def dispatchMoments (codec : Option (ClientCodec N)) (ops : List FrozenOp) (core : SchedCore N)
    (nodes : List (Option N.State)) : PoppedEvent N → List (Moment N)
  | .deliver sender recipient msg =>
    slotMoments codec core nodes recipient fun node ↦ N.onMsg node sender msg
  | .timer node timer => slotMoments codec core nodes node fun state ↦ N.onTimer state timer
  | .clientOp process index =>
    match ops[index]? with
    | none => []
    | some op => clientMoments codec core nodes process op
  | .fault (some n) => slotMoments codec core nodes n N.onStart
  | .fault none => []

/-- The moments of a turn of the loop. -/
def turnMoments (codec : Option (ClientCodec N)) (ops : List FrozenOp) (state : RunState N) :
    List (Moment N) :=
  match state.core.queue.pop with
  | none => []
  | some (event, queue) =>
    ⟨state.core, .take event⟩ ::
      match SchedCore.resolve { state.core with queue := queue } event with
      | (none, _) => []
      | (some popped, core) => dispatchMoments codec ops core state.nodes popped

/-- The moments of the turns from a state on. -/
def loopMoments (codec : Option (ClientCodec N)) (ops : List FrozenOp) :
    RunState N → List (Scheduled N × RunState N) → List (Moment N)
  | _, [] => []
  | state, (_, next) :: rest => turnMoments codec ops state ++ loopMoments codec ops next rest

/-- The moments in which the nodes start. -/
def startMoments (codec : Option (ClientCodec N)) :
    List ℕ → SchedCore N × List (Option N.State) → List (Moment N)
  | [], _ => []
  | id :: rest, state =>
    slotMoments codec state.1 state.2 ⟨.ofNat id⟩ N.onStart ++
      match dispatchStart codec state.1 state.2 ⟨.ofNat id⟩ with
      | .error _ => []
      | .ok state => startMoments codec rest state

/-- The moments of an execution, in order. -/
def Execution.moments {data : PlanData} {workload : Option Strategy} {seed : Seed}
    (e : Execution N data workload codec seed) : List (Moment N) :=
  startMoments codec (List.range e.prepared.nodeCount.toNat)
      (e.prepared, List.replicate e.prepared.nodeCount.toNat (some N.default)) ++
    loopMoments codec (resolveOps data workload seed) e.started e.steps

/-! ### Steps between moments -/

/-- One step of a run, with the moments so far: the bookkeeping of operations and the generator
change, a client operation is scheduled, or a moment happens. -/
inductive MomentStep : List (Moment N) × SchedCore N → List (Moment N) × SchedCore N → Prop
  | quiet (log : List (Moment N)) (core : SchedCore N) (rng : SimRng) (history : History)
      (pendingOps : List (ℕ × PendingOp)) (nextToken : ℕ) :
      MomentStep (log, core) (log, { core with
        rng := rng, history := history, pendingOps := pendingOps, nextToken := nextToken })
  | issue (log : List (Moment N)) (core : SchedCore N) {fireAt : Duration} (process : NodeId)
      (index : ℕ) (hlater : core.now ≤ fireAt) :
      MomentStep (log, core) (log, core.scheduleClientOp fireAt process index)
  | send (log : List (Moment N)) {core core' : SchedCore N} {sender recipient : NodeId}
      {msg : N.Msg} (h : core.scheduleDelivery sender recipient msg = .ok core') :
      MomentStep (log, core) (log ++ [⟨core, .send sender recipient msg⟩], core')
  | setTimer (log : List (Moment N)) {core core' : SchedCore N} {node : NodeId} {timer : N.Timer}
      {after : Duration} (h : core.armTimer node timer after = .ok core') :
      MomentStep (log, core) (log ++ [⟨core, .setTimer node timer after⟩], core')
  | cancelTimer (log : List (Moment N)) (core : SchedCore N) (node : NodeId) (timer : N.Timer) :
      MomentStep (log, core) (log ++ [⟨core, .cancelTimer node timer⟩], core.cancelTimer node timer)
  | take (log : List (Moment N)) {core core' : SchedCore N} {event : Scheduled N}
      {queue : PriorityQueue Scheduled.key} {popped : Option (PoppedEvent N)}
      (hpop : core.queue.pop = some (event, queue)) (hbelow : event.fireAt < core.horizon)
      (hresolve : SchedCore.resolve { core with queue := queue } event = (popped, core')) :
      MomentStep (log, core) (log ++ [⟨core, .take event⟩], core')

/-- Any number of steps. -/
def MomentSteps : List (Moment N) × SchedCore N → List (Moment N) × SchedCore N → Prop :=
  Relation.ReflTransGen MomentStep

/-- What every step preserves, a run preserves. -/
theorem MomentSteps.invariant {P : List (Moment N) → SchedCore N → Prop}
    (hstep : ∀ a b, MomentStep a b → P a.1 a.2 → P b.1 b.2)
    {a b : List (Moment N) × SchedCore N} (h : MomentSteps a b) (ha : P a.1 a.2) : P b.1 b.2 := by
  induction h with
  | refl => exact ha
  | tail _ hlast ih => exact hstep _ _ hlast ih

theorem MomentStep.steps {a b : List (Moment N) × SchedCore N} (h : MomentStep a b) :
    MomentSteps a b := Relation.ReflTransGen.single h

theorem MomentSteps.refl (a : List (Moment N) × SchedCore N) : MomentSteps a a :=
  Relation.ReflTransGen.refl

theorem MomentSteps.trans {a b c : List (Moment N) × SchedCore N} (h : MomentSteps a b)
    (h' : MomentSteps b c) : MomentSteps a c := Relation.ReflTransGen.trans h h'

/-! ### A run is a sequence of steps -/

theorem closeOp_moments (log : List (Moment N)) (core : SchedCore N) (token : OpToken)
    (kind : OpKind) (value : Value) :
    MomentSteps (log, core) (log, core.closeOp token kind value) := by
  unfold SchedCore.closeOp
  split
  · exact .refl _
  · exact (MomentStep.quiet log core core.rng _ _ core.nextToken).steps

theorem openOp_moments (log : List (Moment N)) (core : SchedCore N) (process : ProcessId)
    (f : Function) (value : Value) :
    MomentSteps (log, core) (log, (core.openOp process f value).2) :=
  (MomentStep.quiet log core core.rng _ _ _).steps

theorem completeOp_moments (log : List (Moment N)) (core : SchedCore N) (token : OpToken)
    (completion : Completion N.Response) :
    MomentSteps (log, core) (log, completeOp codec core token completion) := by
  cases completion with
  | ok response => exact closeOp_moments log core token _ _
  | fail => exact closeOp_moments log core token _ _
  | info => exact closeOp_moments log core token _ _

/-- Sending to recipients one after the other, by induction on them. -/
theorem sendMoments_steps {me : NodeId} {msg : N.Msg} {peers : List NodeId}
    {core core' : SchedCore N} (log : List (Moment N))
    (h : peers.foldlM (fun core peer ↦ core.scheduleDelivery me peer msg) core = .ok core') :
    MomentSteps (log, core) (log ++ sendMoments me msg peers core, core') := by
  induction peers generalizing log core with
  | nil =>
    obtain rfl := except_pure_eq_ok.mp h
    rw [sendMoments, List.append_nil]
    exact .refl _
  | cons peer rest ih =>
    rw [List.foldlM_cons, except_bind_eq_ok] at h
    obtain ⟨mid, hsend, hrest⟩ := h
    have hstep := (MomentStep.send log hsend).steps.trans (ih _ hrest)
    rw [List.append_assoc, List.singleton_append] at hstep
    rw [sendMoments, hsend]
    exact hstep

/-- A callback, by induction on its effects. -/
theorem effectMoments_steps {me : NodeId} {α : Type} {effects : Effects N.Msg N.Timer N.Response α}
    {core core' : SchedCore N} {a : α} (log : List (Moment N))
    (h : effects.run (harnessCtx codec me) core = .ok (a, core')) :
    MomentSteps (log, core) (log ++ effectMoments codec me effects core, core') := by
  induction effects generalizing log core with
  | done result =>
    obtain ⟨-, rfl⟩ := Prod.mk.inj (Except.ok.inj h)
    rw [effectMoments, List.append_nil]
    exact .refl _
  | send recipient msg next ih =>
    rw [Effects.run] at h
    split at h
    · simp at h
    · rename_i mid hmid
      have hsend : core.scheduleDelivery me recipient msg = .ok mid := hmid
      have hstep := (MomentStep.send log hsend).steps.trans (ih _ h)
      rw [List.append_assoc, List.singleton_append] at hstep
      rw [effectMoments, hsend]
      exact hstep
  | broadcast msg next ih =>
    rw [Effects.run] at h
    split at h
    · simp at h
    · rename_i mid hmid
      have hstep := (sendMoments_steps log hmid).trans (ih _ h)
      rw [List.append_assoc] at hstep
      rw [effectMoments, hmid]
      exact hstep
  | setTimer timer after next ih =>
    rw [Effects.run] at h
    split at h
    · simp at h
    · rename_i mid hmid
      have hset : core.armTimer me timer after = .ok mid := hmid
      have hstep := (MomentStep.setTimer log hset).steps.trans (ih _ h)
      rw [List.append_assoc, List.singleton_append] at hstep
      rw [effectMoments, hset]
      exact hstep
  | cancelTimer timer next ih =>
    have hstep := (MomentStep.cancelTimer log core me timer).steps.trans (ih _ h)
    rw [List.append_assoc, List.singleton_append] at hstep
    exact hstep
  | now next ih => exact ih _ log h
  | nextU64 next ih =>
    exact (MomentStep.quiet log core _ core.history core.pendingOps core.nextToken).steps.trans
      (ih _ log h)
  | me next ih => exact ih _ log h
  | completeOp token completion next ih =>
    exact (completeOp_moments log core token completion).trans (ih log h)

theorem slotMoments_steps {core core' : SchedCore N} {nodes nodes' : List (Option N.State)}
    {id : NodeId} {callback : N.State → Effects N.Msg N.Timer N.Response N.State}
    (log : List (Moment N))
    (h : runCallback codec core nodes id callback = .ok (core', nodes')) :
    MomentSteps (log, core) (log ++ slotMoments codec core nodes id callback, core') := by
  unfold runCallback at h
  unfold slotMoments
  split at h
  · simp at h
  · rename_i hslot
    obtain ⟨rfl, -⟩ := Prod.mk.inj (Except.ok.inj h)
    rw [hslot, List.append_nil]
    exact .refl _
  · rename_i node hslot
    rw [hslot]
    split at h
    · simp at h
    · rename_i node' after hrun
      obtain ⟨rfl, -⟩ := Prod.mk.inj (Except.ok.inj h)
      exact effectMoments_steps log hrun

theorem clientMoments_steps {core core' : SchedCore N} {nodes nodes' : List (Option N.State)}
    {process : NodeId} {op : FrozenOp} (log : List (Moment N))
    (h : dispatchClientOp codec core nodes process op = .ok (core', nodes')) :
    MomentSteps (log, core) (log ++ clientMoments codec core nodes process op, core') := by
  unfold dispatchClientOp at h
  unfold clientMoments
  simp only at h ⊢
  cases hdecode : codec.bind fun c ↦ c.decode op.op with
  | none =>
    simp only [hdecode] at h ⊢
    obtain ⟨rfl, -⟩ := Prod.mk.inj (Except.ok.inj h)
    rw [List.append_nil]
    exact (openOp_moments log core _ _ _).trans (closeOp_moments log _ _ _ _)
  | some decoded =>
    obtain ⟨f, typedOp⟩ := decoded
    simp only [hdecode] at h ⊢
    refine (openOp_moments log core ⟨process.id⟩ f op.op).trans ?_
    split at h
    · simp at h
    · rename_i hslot
      obtain ⟨rfl, -⟩ := Prod.mk.inj (Except.ok.inj h)
      simp only [hslot, List.append_nil]
      exact closeOp_moments log _ _ _ _
    · rename_i node hslot
      simp only [hslot]
      split at h
      · simp at h
      · rename_i node' outcome after hrun
        refine (effectMoments_steps log hrun).trans ?_
        split at h
        · obtain ⟨rfl, -⟩ := Prod.mk.inj (Except.ok.inj h)
          exact closeOp_moments _ _ _ _ _
        · obtain ⟨rfl, -⟩ := Prod.mk.inj (Except.ok.inj h)
          exact .refl _

theorem dispatchMoments_steps {core core' : SchedCore N} {nodes nodes' : List (Option N.State)}
    {popped : PoppedEvent N} (log : List (Moment N))
    (h : dispatch codec ops core nodes popped = .ok (core', nodes')) :
    MomentSteps (log, core) (log ++ dispatchMoments codec ops core nodes popped, core') := by
  cases popped with
  | deliver sender recipient msg => exact slotMoments_steps log h
  | timer node timer => exact slotMoments_steps log h
  | clientOp process index =>
    simp only [dispatch] at h
    split at h
    · simp at h
    · rename_i op hop
      simp only [dispatchMoments, hop]
      exact clientMoments_steps log h
  | fault rejoined =>
    cases rejoined with
    | none =>
      obtain ⟨rfl, -⟩ := Prod.mk.inj (Except.ok.inj h)
      rw [dispatchMoments, List.append_nil]
      exact .refl _
    | some n => exact slotMoments_steps log h

theorem pumpClientOps_moments {state next : RunState N} (log : List (Moment N))
    (h : pumpClientOps state = .ok next) : MomentSteps (log, state.core) (log, next.core) :=
  pumpClientOps_core (P := fun core ↦ MomentSteps (log, state.core) (log, core))
    (fun core _ process index hlater hcore ↦
      hcore.trans (MomentStep.issue log core process index hlater).steps) h (.refl _)

/-- A turn of the loop. -/
theorem Turn.moments_steps {state next : RunState N} {event : Scheduled N}
    (h : Turn codec ops state event next) (log : List (Moment N)) :
    MomentSteps (log, state.core) (log ++ turnMoments codec ops state, next.core) := by
  cases h with
  | skip hpop hbelow hresolve =>
    rw [turnMoments, hpop]
    simp only [hresolve]
    exact (MomentStep.take log hpop hbelow hresolve).steps
  | fire hpop hbelow hresolve hhandle =>
    obtain ⟨core, nodes, pumped, hdispatch, hpump, rfl⟩ := exists_pump_of_handle hhandle
    have hsteps := (MomentStep.take log hpop hbelow hresolve).steps.trans
      (dispatchMoments_steps _ hdispatch)
    rw [List.append_assoc, List.singleton_append] at hsteps
    rw [turnMoments, hpop]
    simp only [hresolve]
    exact hsteps.trans (pumpClientOps_moments _ hpump)

theorem Loop.moments_steps {state final : RunState N} {steps : List (Scheduled N × RunState N)}
    (h : Loop codec ops state steps final) (log : List (Moment N)) :
    MomentSteps (log, state.core)
      (log ++ loopMoments codec ops state steps, (lastState state steps).core) := by
  induction h generalizing log with
  | stop =>
    rw [loopMoments, List.append_nil]
    exact .refl _
  | turn hturn _ ih =>
    rw [lastState_cons, loopMoments, ← List.append_assoc]
    exact (hturn.moments_steps log).trans (ih _)

theorem startMoments_steps {ids : List ℕ} {state state' : SchedCore N × List (Option N.State)}
    (log : List (Moment N))
    (h : ids.foldlM (fun state id ↦ dispatchStart codec state.1 state.2 ⟨.ofNat id⟩) state =
      .ok state') :
    MomentSteps (log, state.1) (log ++ startMoments codec ids state, state'.1) := by
  induction ids generalizing log state with
  | nil =>
    obtain rfl := except_pure_eq_ok.mp h
    rw [startMoments, List.append_nil]
    exact .refl _
  | cons id rest ih =>
    rw [List.foldlM_cons, except_bind_eq_ok] at h
    obtain ⟨mid, hstart, hrest⟩ := h
    rw [startMoments, hstart, ← List.append_assoc]
    exact (slotMoments_steps log hstart).trans (ih _ hrest)

/-- The moments of an execution lead from the prepared scheduler to where the loop ends. -/
theorem Execution.moments_steps {data : PlanData} {workload : Option Strategy} {seed : Seed}
    (e : Execution N data workload codec seed) :
    MomentSteps ([], e.prepared) (e.moments, (lastState e.started e.steps).core) := by
  obtain ⟨core, nodes, hnodes, hpump⟩ := startRun_eq_ok.mp e.start_eq
  have hstart := startMoments_steps [] hnodes
  rw [List.nil_append] at hstart
  exact (hstart.trans (pumpClientOps_moments _ hpump)).trans (e.loop.moments_steps _)

/-- What a moment does to the core. -/
def Moment.Leads (m : Moment N) (core' : SchedCore N) : Prop :=
  match m.act with
  | .send sender recipient msg => m.core.scheduleDelivery sender recipient msg = .ok core'
  | .setTimer node timer after => m.core.armTimer node timer after = .ok core'
  | .cancelTimer node timer => core' = m.core.cancelTimer node timer
  | .take event => ∃ queue popped, m.core.queue.pop = some (event, queue) ∧
      event.fireAt < m.core.horizon ∧
      SchedCore.resolve { m.core with queue := queue } event = (popped, core')

theorem Moment.Leads.step {m : Moment N} {core' : SchedCore N} (h : m.Leads core')
    (log : List (Moment N)) : MomentStep (log, m.core) (log ++ [m], core') := by
  obtain ⟨core, act⟩ := m
  cases act with
  | send => exact .send log h
  | setTimer => exact .setTimer log h
  | cancelTimer node timer =>
    obtain rfl : core' = core.cancelTimer node timer := h
    exact .cancelTimer log core node timer
  | take event =>
    obtain ⟨queue, popped, hpop, hbelow, hresolve⟩ := h
    exact .take log hpop hbelow hresolve

/-- A step adds no moment, or one that leads from the core before it to the core after it. -/
theorem MomentStep.log_eq {x y : List (Moment N) × SchedCore N} (h : MomentStep x y) :
    y.1 = x.1 ∨ ∃ m : Moment N, m.core = x.2 ∧ y.1 = x.1 ++ [m] ∧ m.Leads y.2 := by
  cases h with
  | quiet => exact .inl rfl
  | issue => exact .inl rfl
  | send log h => exact .inr ⟨_, rfl, rfl, h⟩
  | setTimer log h => exact .inr ⟨_, rfl, rfl, h⟩
  | cancelTimer log core node timer =>
    exact .inr ⟨⟨core, .cancelTimer node timer⟩, rfl, rfl, rfl⟩
  | take log hpop hbelow hresolve => exact .inr ⟨_, rfl, rfl, _, _, hpop, hbelow, hresolve⟩

/-- A run passes through each of its moments. -/
theorem MomentSteps.through {core₀ core : SchedCore N} {log : List (Moment N)}
    (h : MomentSteps ([], core₀) (log, core)) {k : ℕ} {m : Moment N} (hk : log[k]? = some m) :
    MomentSteps ([], core₀) (log.take k, m.core) ∧
      ∃ core', m.Leads core' ∧ MomentSteps (log.take (k + 1), core') (log, core) := by
  generalize hend : (log, core) = final at h
  induction h generalizing log core with
  | refl =>
    obtain ⟨rfl, -⟩ := Prod.mk.inj hend
    simp at hk
  | @tail mid final hsteps hlast ih =>
    obtain ⟨log', core'⟩ := mid
    subst hend
    rcases hlast.log_eq with hlog | ⟨last, hcore, hlog, hleads⟩
    · obtain rfl : log = log' := hlog
      obtain ⟨hbefore, core'', hmoment, hafter⟩ := ih hk rfl
      exact ⟨hbefore, core'', hmoment, hafter.trans hlast.steps⟩
    · obtain rfl : log = log' ++ [last] := hlog
      rcases lt_or_ge k log'.length with hlt | hge
      · rw [List.getElem?_append_left hlt] at hk
        obtain ⟨hbefore, core'', hmoment, hafter⟩ := ih hk rfl
        rw [List.take_append_of_le_length hlt.le, List.take_append_of_le_length hlt]
        exact ⟨hbefore, core'', hmoment, hafter.trans hlast.steps⟩
      · obtain rfl : k = log'.length := by
          have hlt := (List.getElem?_eq_some_iff.mp hk).1
          rw [List.length_append, List.length_singleton] at hlt
          omega
        rw [List.getElem?_append_right le_rfl, Nat.sub_self] at hk
        obtain rfl : last = m := Option.some.inj hk
        have hall : (log' ++ [last]).take (log'.length + 1) = log' ++ [last] :=
          List.take_of_length_le (by simp)
        rw [List.take_left, hall, hcore]
        exact ⟨hsteps, core, hleads, .refl _⟩

/-- A run up to one of its moments or beyond: the moments so far lead from the prepared scheduler of
the plan to a core. -/
structure Course (N : Node) (data : PlanData) (seed : Seed) where
  prepared : SchedCore N
  moments : List (Moment N)
  core : SchedCore N
  prepare_eq : prepareCore N data seed = .ok prepared
  steps : MomentSteps ([], prepared) (moments, core)

/-- The course of an execution, to where its loop ends. -/
def Execution.course {data : PlanData} {workload : Option Strategy} {seed : Seed}
    (e : Execution N data workload codec seed) : Course N data seed :=
  ⟨e.prepared, e.moments, _, e.prepare_eq, e.moments_steps⟩

/-! ### The events taken -/

/-- The event that a moment takes from the queue. -/
def Moment.taken (m : Moment N) : Option (Scheduled N) :=
  match m.act with
  | .take event => some event
  | _ => none

theorem Moment.taken_eq_some {m : Moment N} {event : Scheduled N} :
    m.taken = some event ↔ m.act = .take event := by
  unfold Moment.taken
  cases m.act <;> simp

/-- An element is in a prefix exactly when it stands at a position of it. -/
theorem mem_take_iff {α : Type*} {l : List α} {k : ℕ} {a : α} :
    a ∈ l.take k ↔ ∃ i < k, l[i]? = some a := by
  rw [List.mem_iff_getElem?]
  refine exists_congr fun i ↦ ?_
  rw [List.getElem?_take]
  split_ifs with hlt
  · simp [hlt]
  · simp [hlt]

/-- The events taken in moments. -/
def takenIn (log : List (Moment N)) : List (Scheduled N) := log.filterMap Moment.taken

theorem mem_takenIn {log : List (Moment N)} {event : Scheduled N} :
    event ∈ takenIn log ↔ ∃ m ∈ log, m.act = .take event := by
  simp only [takenIn, List.mem_filterMap, Moment.taken_eq_some]

/-- The event of a moment is among those taken before a later one. -/
theorem mem_takenIn_take {log : List (Moment N)} {i k : ℕ} {core : SchedCore N}
    {event : Scheduled N} (h : log[i]? = some ⟨core, .take event⟩) (hlt : i < k) :
    event ∈ takenIn (log.take k) :=
  mem_takenIn.mpr ⟨⟨core, .take event⟩, mem_take_iff.mpr ⟨i, hlt, h⟩, rfl⟩

theorem mem_takenIn_append {log : List (Moment N)} (m : Moment N) {event : Scheduled N}
    (h : event ∈ takenIn log) : event ∈ takenIn (log ++ [m]) := by
  rw [takenIn, List.filterMap_append]
  exact List.mem_append_left _ h

theorem takenIn_append_take (log : List (Moment N)) (core : SchedCore N) (event : Scheduled N) :
    takenIn (log ++ [⟨core, .take event⟩]) = takenIn log ++ [event] := by
  rw [takenIn, List.filterMap_append]
  rfl

theorem takenIn_append_other (log : List (Moment N)) {m : Moment N} (h : m.taken = none) :
    takenIn (log ++ [m]) = takenIn log := by
  rw [takenIn, List.filterMap_append, List.filterMap_cons, h]
  exact List.append_nil _

/-- Resolving an event changes the clock, the cluster and the bookkeeping only. -/
theorem resolve_frame {core core' : SchedCore N} {event : Scheduled N}
    {popped : Option (PoppedEvent N)} (h : core.resolve event = (popped, core')) :
    core'.model = core.model ∧ core'.lastLink = core.lastLink ∧ core'.timerGen = core.timerGen := by
  cases resolves_of_resolve h with
  | skipped => exact ⟨rfl, rfl, rfl⟩
  | deliver => exact ⟨rfl, rfl, rfl⟩
  | timer => exact ⟨rfl, rfl, rfl⟩
  | clientOp => exact ⟨rfl, rfl, rfl⟩
  | @fault action =>
    cases action with
    | partition a b => exact ⟨rfl, rfl, rfl⟩
    | healAll => exact ⟨rfl, rfl, rfl⟩
    | crash n =>
      obtain ⟨history, pendingOps, hcrash⟩ :=
        applyFault_crash { core with now := event.fireAt } n
      rw [hcrash]
      exact ⟨rfl, rfl, rfl⟩
    | restart n => exact ⟨rfl, rfl, rfl⟩

/-- Scheduling a message changes the generator, the floors and the queue only. -/
theorem scheduleDelivery_frame {core core' : SchedCore N} {sender recipient : NodeId} {msg : N.Msg}
    (h : core.scheduleDelivery sender recipient msg = .ok core') :
    core' = { core with
      rng := core'.rng, lastLink := core'.lastLink, queue := core'.queue, seq := core'.seq } := by
  have hspec := delivery core sender recipient msg
  rw [h] at hspec
  generalize hresult : (Except.ok core' : Except Halt (SchedCore N)) = result at hspec
  cases hspec with
  | cut =>
    obtain rfl := Except.ok.inj hresult
    rfl
  | lost =>
    obtain rfl := Except.ok.inj hresult
    rfl
  | overflow => cases hresult
  | sent =>
    obtain rfl := Except.ok.inj hresult
    unfold SchedCore.sent
    split_ifs <;> rfl

theorem armTimer_eq_ok {core core' : SchedCore N} {node : NodeId} {timer : N.Timer}
    {after : Duration} (h : core.armTimer node timer after = .ok core') :
    ∃ fireAt, addDuration core.now after = .ok fireAt ∧
      core' = (core.cancelTimer node timer).enqueue fireAt
        (.timer node timer (core.timerGen (SchedCore.timerKey node timer) + 1)) := by
  unfold SchedCore.armTimer at h
  simp only at h
  split at h
  · simp at h
  · rename_i fireAt hsum
    have hgen : (core.cancelTimer node timer).timerGen (SchedCore.timerKey node timer) =
        core.timerGen (SchedCore.timerKey node timer) + 1 := Function.update_self _ _ _
    rw [hgen] at h
    exact ⟨fireAt, hsum, (Except.ok.inj h).symm⟩

/-- The queue and the events taken, at every step. -/
theorem MomentStep.queueInv {a b : List (Moment N) × SchedCore N} (h : MomentStep a b)
    (ha : QueueInv (takenIn a.1) a.2) : QueueInv (takenIn b.1) b.2 := by
  cases h with
  | quiet log core =>
    exact (queueProperty_queueInv _).congr core _ ⟨rfl, rfl, rfl, rfl, rfl⟩ ha
  | issue log core process index hlater =>
    exact (queueProperty_queueInv _).enqueue core _ _ hlater ha
  | send log h =>
    rw [takenIn_append_other log rfl]
    exact (queueProperty_queueInv _).coreSteps (scheduleDelivery_steps h) ha
  | setTimer log h =>
    rw [takenIn_append_other log rfl]
    exact (queueProperty_queueInv _).coreSteps (armTimer_steps h) ha
  | cancelTimer log core node timer =>
    rw [takenIn_append_other log rfl]
    exact (queueProperty_queueInv _).congr core _ ⟨rfl, rfl, rfl, rfl, rfl⟩ ha
  | take log hpop hbelow hresolve =>
    rw [takenIn_append_take]
    exact (queueProperty_queueInv _).congr _ _ (sameQueue_resolve hresolve) (ha.take hpop)

/-- An event stays in the queue until it is taken. -/
theorem MomentStep.kept {x y : List (Moment N) × SchedCore N} (h : MomentStep x y)
    (event : Scheduled N) (hx : event ∈ x.2.queue.toList ∨ event ∈ takenIn x.1) :
    event ∈ y.2.queue.toList ∨ event ∈ takenIn y.1 := by
  have hpush {core : SchedCore N} (fireAt : Duration) (kind : EventKind N)
      (hevent : event ∈ core.queue.toList) : event ∈ (core.enqueue fireAt kind).queue.toList :=
    PriorityQueue.mem_push.mpr (.inr hevent)
  cases h with
  | quiet => exact hx
  | issue => exact hx.imp_left (hpush _ _)
  | send log h =>
    refine hx.imp (fun hevent ↦ ?_) (mem_takenIn_append _)
    refine (scheduleDelivery_steps h).invariant (P := fun core ↦ event ∈ core.queue.toList)
      (fun c c' hc hstep ↦ ?_) hevent
    cases hstep with
    | quiet => exact hc
    | enqueue => exact hpush _ _ hc
    | close token value _ =>
      rw [(sameQueue_closeOp c token _ value).queue_eq]
      exact hc
  | setTimer log h =>
    obtain ⟨fireAt, -, rfl⟩ := armTimer_eq_ok h
    exact hx.imp (hpush _ _) (mem_takenIn_append _)
  | cancelTimer => exact hx.imp_right (mem_takenIn_append _)
  | take log hpop hbelow hresolve =>
    rcases hx with hevent | hevent
    · simp only [PriorityQueue.pop_eq_some_iff.mp hpop, List.mem_cons] at hevent
      rcases hevent with rfl | hevent
      · rw [takenIn_append_take]
        exact .inr (List.mem_append_right _ (List.mem_singleton_self _))
      · exact .inl ((sameQueue_resolve hresolve).queue_eq ▸ hevent)
    · exact .inr (mem_takenIn_append _ hevent)

end Propsim.Simulator
