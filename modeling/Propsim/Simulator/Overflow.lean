import Propsim.Simulator.Deadlines
import Propsim.Simulator.Halting
import Propsim.Simulator.Messages

/-!
# Sums of virtual time

A run forms four kinds of sums: the horizon after the last scripted fault, the firing time of each
timer that is set, the delivery time of each message that the network accepts, and the time of each
client operation that is issued (`Sums`). The evaluator adds the end of a deadline after its anchor.
A run overflows exactly when a sum that it forms is not representable (`exists_overflow_iff`), by
one equivalence for each kind of call. What is due at the horizon or later is never taken, and a
deadline that ends there or later never cuts a run short (`runDeterministic_noOverflow`). The sums
are unchecked, so a fault, a timer or a deadline near the largest duration overflows
(`farPlans_overflow`).
-/

set_option autoImplicit false
set_option relaxedAutoImplicit false

namespace Propsim.Simulator

open Foundation Interchange Propsim.Core

variable {N : Node} {codec : Option (ClientCodec N)} {ops : List FrozenOp}

/-! ### Sums -/

/-- Two durations have a sum. -/
def Fits (a b : Duration) : Prop := a.nanos + b.nanos ≤ maxNanos

instance (a b : Duration) : Decidable (Fits a b) :=
  inferInstanceAs (Decidable (a.nanos + b.nanos ≤ maxNanos))

theorem addDuration_eq_error_iff {a b : Duration} :
    addDuration a b = .error .overflow ↔ ¬Fits a b := by
  constructor
  · intro h hfits
    obtain ⟨c, hc⟩ := exists_addDuration hfits
    cases h.symm.trans hc
  · intro h
    cases hsum : addDuration a b with
    | error halt => rw [addDuration_error hsum]
    | ok c =>
      refine absurd ?_ h
      rw [Fits, ← nanos_of_addDuration hsum]
      exact c.le_max

/-- The horizon overflows exactly when the last scripted fault leaves no room for its margin. -/
theorem runHorizon_eq_error_iff {data : PlanData} :
    runHorizon data = .error .overflow ↔
      ¬Fits (latestFault (horizonFaults data)) (.fromSecs 10) := by
  rw [← addDuration_eq_error_iff, runHorizon, except_bind_eq_error]
  refine or_iff_left ?_
  rintro ⟨_, _, hpure⟩
  exact except_pure_ne_error hpure

/-- A timer overflows exactly when the clock leaves no room for its span. -/
theorem armTimer_eq_error_iff {core : SchedCore N} {node : NodeId} {timer : N.Timer}
    {after : Duration} :
    core.armTimer node timer after = .error .overflow ↔ ¬Fits core.now after := by
  rw [← addDuration_eq_error_iff]
  unfold SchedCore.armTimer
  simp only [SchedCore.cancelTimer]
  cases addDuration core.now after with
  | error halt => simp
  | ok fireAt => simp

/-- The evaluator overflows exactly when the anchor of a deadline leaves no room for it. -/
theorem evaluateOne_eq_error_iff {S : Type} {prop : Property S} {trace : WorldTrace S}
    {events : List RunEvent} :
    evaluateOne prop trace events = .error .overflow ↔
      ∃ deadline, prop.kind = .eventuallyWithin deadline ∧
        ¬Fits (anchorTime prop.after events) deadline := by
  unfold evaluateOne
  cases hkind : prop.kind with
  | always =>
    simp only [reduceCtorEq, false_and, exists_false, iff_false]
    split <;> simp
  | sometimes =>
    simp only [reduceCtorEq, false_and, exists_false, iff_false]
    split_ifs <;> simp
  | eventuallyWithin deadline =>
    simp only [PropertyKind.eventuallyWithin.injEq, exists_eq_left', ← addDuration_eq_error_iff,
      except_bind_eq_error]
    refine or_iff_left fun ⟨hi, _, hverdict⟩ ↦ ?_
    split_ifs at hverdict <;> exact except_pure_ne_error hverdict

/-- An evaluation fails only by an overflow. -/
theorem evaluateOne_error {S : Type} {prop : Property S} {trace : WorldTrace S}
    {events : List RunEvent} {halt : Halt} (h : evaluateOne prop trace events = .error halt) :
    halt = .overflow := by
  unfold evaluateOne at h
  cases hkind : prop.kind with
  | always =>
    simp only [hkind] at h
    split at h <;> simp at h
  | sometimes =>
    simp only [hkind] at h
    split_ifs at h
  | eventuallyWithin deadline =>
    simp only [hkind] at h
    rcases except_bind_eq_error.mp h with hsum | ⟨hi, -, hverdict⟩
    · exact addDuration_error hsum
    · split_ifs at hverdict <;> exact absurd hverdict except_pure_ne_error

/-- The evaluation of a list of properties overflows exactly when the anchor of one of its deadlines
leaves no room for it. -/
theorem evaluateProperties_eq_error_iff {S : Type} {properties : List (Property S)}
    {trace : WorldTrace S} {events : List RunEvent} :
    evaluateProperties properties trace events = .error .overflow ↔
      ∃ prop ∈ properties, ∃ deadline, prop.kind = .eventuallyWithin deadline ∧
        ¬Fits (anchorTime prop.after events) deadline := by
  have hone (prop : Property S) (halt : Halt) :
      (do let verdict ← evaluateOne prop trace events; pure (⟨prop.name, verdict⟩ : NamedVerdict)) =
        .error halt ↔ evaluateOne prop trace events = .error halt := by
    rw [except_bind_eq_error]
    exact or_iff_left fun ⟨_, _, hpure⟩ ↦ except_pure_ne_error hpure
  rw [evaluateProperties, mapM_eq_error_iff_exists fun prop _ halt hhalt ↦
    evaluateOne_error ((hone prop halt).mp hhalt)]
  simp only [hone, evaluateOne_eq_error_iff]

/-! ### Moments that overflow -/

/-- The sum that a moment forms: a timer is set to fire after a span, or a message that the network
neither cuts off nor loses is delivered after the delay that it draws. -/
inductive Moment.Adds : Moment N → Duration → Duration → Prop
  | timer (core : SchedCore N) (node : NodeId) (timer : N.Timer) (after : Duration) :
      Moment.Adds ⟨core, .setTimer node timer after⟩ core.now after
  | delivery {core : SchedCore N} {sender recipient : NodeId} (msg : N.Msg)
      (hconnected : core.connected sender recipient = true) (hkept : core.lossRoll.1 = false) :
      Moment.Adds ⟨core, .send sender recipient msg⟩ core.now (.fromMillis core.delayDraw.1)

/-- The sum that a moment forms is not representable. -/
def Moment.Overflows (m : Moment N) : Prop := ∃ a b, m.Adds a b ∧ ¬Fits a b

theorem armTimer_overflows_iff {core : SchedCore N} {node : NodeId} {timer : N.Timer}
    {after : Duration} : core.armTimer node timer after = .error .overflow ↔
      Moment.Overflows ⟨core, .setTimer node timer after⟩ := by
  rw [armTimer_eq_error_iff]
  constructor
  · exact fun hfits ↦ ⟨_, _, .timer core node timer after, hfits⟩
  · rintro ⟨a, b, ⟨⟩, hfits⟩
    exact hfits

theorem scheduleDelivery_overflows_iff {core : SchedCore N} {sender recipient : NodeId}
    {msg : N.Msg} : core.scheduleDelivery sender recipient msg = .error .overflow ↔
      Moment.Overflows ⟨core, .send sender recipient msg⟩ := by
  constructor
  · intro herror
    have hspec := delivery core sender recipient msg
    rw [herror] at hspec
    cases hspec with
    | overflow hconnected hkept hsum =>
      exact ⟨_, _, .delivery msg hconnected hkept, addDuration_eq_error_iff.mp hsum⟩
  · rintro ⟨a, b, hadds, hfits⟩
    cases hadds with
    | delivery _ hconnected hkept =>
      have hspec := delivery core sender recipient msg
      generalize core.scheduleDelivery sender recipient msg = result at hspec ⊢
      cases hspec with
      | cut hcut => simp [hcut] at hconnected
      | lost _ hlost => simp [hlost] at hkept
      | overflow _ _ hsum => rw [addDuration_error hsum]
      | sent _ _ hsum => cases (addDuration_eq_error_iff.mpr hfits).symm.trans hsum

theorem scheduleDelivery_error {core : SchedCore N} {sender recipient : NodeId} {msg : N.Msg}
    {halt : Halt} (h : core.scheduleDelivery sender recipient msg = .error halt) :
    halt = .overflow := by
  have hspec := delivery core sender recipient msg
  rw [h] at hspec
  cases hspec with
  | overflow _ _ hsum => exact addDuration_error hsum

theorem not_overflows_cancelTimer (core : SchedCore N) (node : NodeId) (timer : N.Timer) :
    ¬Moment.Overflows ⟨core, .cancelTimer node timer⟩ := by
  rintro ⟨a, b, ⟨⟩, -⟩

/-- A broadcast overflows exactly when one of its moments does, by induction on the peers. -/
theorem broadcast_overflows_iff {me : NodeId} {msg : N.Msg} {peers : List NodeId}
    {core : SchedCore N} :
    peers.foldlM (fun core peer ↦ core.scheduleDelivery me peer msg) core = .error .overflow ↔
      ∃ m ∈ sendMoments me msg peers core, m.Overflows := by
  induction peers generalizing core with
  | nil => simp [sendMoments, except_pure_ne_error]
  | cons peer rest ih =>
    rw [List.foldlM_cons, except_bind_eq_error, sendMoments, List.exists_mem_cons_iff,
      scheduleDelivery_overflows_iff]
    refine or_congr_right ?_
    cases hmid : core.scheduleDelivery me peer msg with
    | error halt => simp
    | ok mid => simp [ih]

/-- A callback overflows exactly when one of its moments does, by induction on its effects. -/
theorem run_overflows_iff {me : NodeId} {α : Type} {effects : Effects N.Msg N.Timer N.Response α}
    {core : SchedCore N} : effects.run (harnessCtx codec me) core = .error .overflow ↔
      ∃ m ∈ effectMoments codec me effects core, m.Overflows := by
  induction effects generalizing core with
  | done result => simp [Effects.run, effectMoments]
  | send recipient msg next ih =>
    rw [effectMoments, List.exists_mem_cons_iff, ← scheduleDelivery_overflows_iff, Effects.run]
    cases hmid : (harnessCtx codec me).send recipient msg core with
    | error halt =>
      have hmid : core.scheduleDelivery me recipient msg = .error halt := hmid
      simp [hmid, scheduleDelivery_error hmid]
    | ok mid =>
      have hmid : core.scheduleDelivery me recipient msg = .ok mid := hmid
      simp [hmid, ih]
  | broadcast msg next ih =>
    have hsends : (harnessCtx codec me).broadcast msg core = .error .overflow ↔ _ :=
      broadcast_overflows_iff
    rw [effectMoments, Effects.run]
    simp only [List.mem_append, or_and_right, exists_or, ← hsends]
    cases hmid : (harnessCtx codec me).broadcast msg core with
    | error halt => simp
    | ok mid => simp [ih]
  | setTimer timer after next ih =>
    rw [effectMoments, List.exists_mem_cons_iff, ← armTimer_overflows_iff, Effects.run]
    cases hmid : (harnessCtx codec me).setTimer timer after core with
    | error halt =>
      have hmid : core.armTimer me timer after = .error halt := hmid
      simp [hmid, armTimer_error hmid]
    | ok mid =>
      have hmid : core.armTimer me timer after = .ok mid := hmid
      simp [hmid, ih]
  | cancelTimer timer next ih =>
    rw [effectMoments, List.exists_mem_cons_iff, Effects.run, ih]
    exact (or_iff_right (not_overflows_cancelTimer core me timer)).symm
  | now next ih => exact ih _
  | nextU64 next ih => exact ih _
  | me next ih => exact ih _
  | completeOp token completion next ih => exact ih

variable {core : SchedCore N} {nodes : List (Option N.State)}

theorem runCallback_overflows_iff {id : NodeId}
    {callback : N.State → Effects N.Msg N.Timer N.Response N.State} :
    runCallback codec core nodes id callback = .error .overflow ↔
      ∃ m ∈ slotMoments codec core nodes id callback, m.Overflows := by
  unfold runCallback slotMoments
  cases hslot : nodes[id.id.toNat]? with
  | none => simp
  | some slot =>
    cases slot with
    | none => simp
    | some node =>
      rw [← run_overflows_iff]
      cases hrun : (callback node).run (harnessCtx codec id) core with
      | error halt => simp [hrun]
      | ok result => simp [hrun]

theorem dispatchClientOp_overflows_iff {process : NodeId} {op : FrozenOp} :
    dispatchClientOp codec core nodes process op = .error .overflow ↔
      ∃ m ∈ clientMoments codec core nodes process op, m.Overflows := by
  unfold dispatchClientOp clientMoments
  cases hdecode : codec.bind fun c ↦ c.decode op.op with
  | none => simp
  | some decoded =>
    obtain ⟨f, typedOp⟩ := decoded
    cases hslot : nodes[target op process nodes.length]? with
    | none => simp [hslot]
    | some slot =>
      cases slot with
      | none => simp [hslot]
      | some node =>
        rw [← run_overflows_iff]
        cases hrun : (N.onClientOp node typedOp (core.openOp ⟨process.id⟩ f op.op).1).run
            (harnessCtx codec ⟨.ofNat (target op process nodes.length)⟩)
            (core.openOp ⟨process.id⟩ f op.op).2 with
        | error halt => simp [hslot, hrun]
        | ok result =>
          obtain ⟨⟨node', outcome⟩, after⟩ := result
          cases outcome <;> simp [hslot, hrun]

/-- The dispatch of an event overflows exactly when one of its moments does. -/
theorem dispatch_overflows_iff {popped : PoppedEvent N} :
    dispatch codec ops core nodes popped = .error .overflow ↔
      ∃ m ∈ dispatchMoments codec ops core nodes popped, m.Overflows := by
  cases popped with
  | deliver sender recipient msg => exact runCallback_overflows_iff
  | timer id timer => exact runCallback_overflows_iff
  | clientOp process index =>
    simp only [dispatch, dispatchMoments]
    cases ops[index]? with
    | none => simp
    | some op => exact dispatchClientOp_overflows_iff
  | fault rejoined =>
    cases rejoined with
    | none => simp [dispatch, dispatchMoments]
    | some n => exact runCallback_overflows_iff

/-- The start of the nodes overflows exactly when one of its moments does. -/
theorem startNodes_overflows_iff {ids : List ℕ} {state : SchedCore N × List (Option N.State)} :
    ids.foldlM (fun state id ↦ dispatchStart codec state.1 state.2 ⟨.ofNat id⟩) state =
        .error .overflow ↔ ∃ m ∈ startMoments codec ids state, m.Overflows := by
  induction ids generalizing state with
  | nil => simp [startMoments, except_pure_ne_error]
  | cons id rest ih =>
    have hfirst : dispatchStart codec state.1 state.2 ⟨.ofNat id⟩ = .error .overflow ↔ _ :=
      runCallback_overflows_iff
    rw [List.foldlM_cons, except_bind_eq_error, startMoments]
    simp only [List.mem_append, or_and_right, exists_or, ← hfirst]
    refine or_congr_right ?_
    cases hmid : dispatchStart codec state.1 state.2 ⟨.ofNat id⟩ with
    | error halt => simp
    | ok mid => simp [ih]

/-! ### The pump -/

/-- A process has an operation left and none in flight. -/
def RunState.Issues (state : RunState N) (p : ℕ) : Prop :=
  ¬state.core.closedFor ⟨.ofNat p⟩ < state.scheduled p ∧ state.perProcess p ≠ []

theorem pumpProcess_overflows_iff {state : RunState N} {p : ℕ} :
    pumpProcess state p = .error .overflow ↔
      state.Issues p ∧ ¬Fits state.core.now (.fromMillis 1) := by
  rw [← addDuration_eq_error_iff, RunState.Issues]
  unfold pumpProcess
  split_ifs with hbusy
  · simp [hbusy]
  cases hstream : state.perProcess p with
  | nil => simp
  | cons index rest =>
    cases addDuration state.core.now (.fromMillis 1) with
    | error halt => simp [hbusy]
    | ok fireAt => simp

theorem pumpProcess_idle {state : RunState N} {p : ℕ} (h : ¬state.Issues p) :
    pumpProcess state p = .ok state := by
  unfold pumpProcess
  split_ifs with hbusy
  · rfl
  · have hdrained : state.perProcess p = [] := not_not.mp fun hstream ↦ h ⟨hbusy, hstream⟩
    rw [hdrained]

/-- The pump overflows exactly when some process issues an operation and the clock leaves no room
for its millisecond. -/
theorem pumpClientOps_overflows_iff {state : RunState N} :
    pumpClientOps state = .error .overflow ↔
      ∃ p < state.core.nodeCount.toNat, state.Issues p ∧
        ¬Fits state.core.now (.fromMillis 1) := by
  by_cases hfits : Fits state.core.now (.fromMillis 1)
  · refine iff_of_false (fun herror ↦ ?_) fun ⟨_, _, _, hoverflows⟩ ↦ hoverflows hfits
    have hall : Ensures (fun s : RunState N ↦ s.core.now = state.core.now) (· ≠ .overflow)
        (pumpClientOps state) := by
      refine ensures_foldlM (fun p _ s hs ↦ ensures_of_eq (fun next hnext ↦ ?_) ?_) rfl
      · cases pumps_of_pumpProcess hnext with
        | busy => exact hs
        | drained => exact hs
        | issue => exact hs
      · rintro halt hhalt rfl
        exact (pumpProcess_overflows_iff.mp hhalt).2 (hs ▸ hfits)
    exact hall.of_error herror rfl
  · -- No process issues without an overflow, so the state stays as it is.
    have hpump (ps : List ℕ) : ps.foldlM pumpProcess state = .error .overflow ↔
        ∃ p ∈ ps, state.Issues p := by
      induction ps with
      | nil => simp [except_pure_ne_error]
      | cons p ps ih =>
        rw [List.foldlM_cons, except_bind_eq_error, pumpProcess_overflows_iff,
          List.exists_mem_cons_iff]
        by_cases hissues : state.Issues p
        · exact iff_of_true (.inl ⟨hissues, hfits⟩) (.inl hissues)
        · simp [hissues, pumpProcess_idle hissues, ih]
    rw [pumpClientOps, hpump]
    simp [hfits]

/-- A turn overflows exactly when its dispatch or its pump does. -/
theorem handle_overflows_iff {state : RunState N} {popped : PoppedEvent N} :
    handle codec ops state popped = .error .overflow ↔
      (∃ m ∈ dispatchMoments codec ops state.core state.nodes popped, m.Overflows) ∨
      ∃ core nodes, dispatch codec ops state.core state.nodes popped = .ok (core, nodes) ∧
        pumpClientOps { state with core := core, nodes := nodes } = .error .overflow := by
  rw [handle, except_bind_eq_error, dispatch_overflows_iff, Prod.exists]
  refine or_congr_right (exists_congr fun core ↦ exists_congr fun nodes ↦
    and_congr_right fun _ ↦ ?_)
  rw [except_bind_eq_error, or_iff_left]
  rintro ⟨_, _, hpure⟩
  exact except_pure_ne_error hpure

theorem startRun_overflows_iff {prepared : SchedCore N} :
    startRun codec ops prepared = .error .overflow ↔
      (∃ m ∈ startMoments codec (List.range prepared.nodeCount.toNat)
        (prepared, List.replicate prepared.nodeCount.toNat (some N.default)), m.Overflows) ∨
      ∃ core nodes, startNodes codec prepared = .ok (core, nodes) ∧
        pumpClientOps (unpumped ops prepared.nodeCount core nodes) = .error .overflow := by
  rw [startRun, except_bind_eq_error, startNodes_overflows_iff, Prod.exists]
  exact Iff.rfl

/-! ### The sums of a run -/

/-- A state in which a run issues operations: after its nodes have started, and after each event
that it dispatches. -/
inductive Pumped (N : Node) (data : PlanData) (workload : Option Strategy)
    (codec : Option (ClientCodec N)) (seed : Seed) : RunState N → Prop
  | start {prepared core : SchedCore N} {nodes : List (Option N.State)}
      (hprepare : prepareCore N data seed = .ok prepared)
      (hnodes : startNodes codec prepared = .ok (core, nodes)) :
      Pumped N data workload codec seed
        (unpumped (resolveOps data workload seed) prepared.nodeCount core nodes)
  | fire {prepared core core' : SchedCore N} {started state : RunState N} {event : Scheduled N}
      {popped : PoppedEvent N} {nodes : List (Option N.State)}
      (hprepare : prepareCore N data seed = .ok prepared)
      (hstart : startRun codec (resolveOps data workload seed) prepared = .ok started)
      (hreach : Reaches codec (resolveOps data workload seed) started state)
      (hfires : Fires state event popped core)
      (hdispatch : dispatch codec (resolveOps data workload seed) core state.nodes popped =
        .ok (core', nodes)) :
      Pumped N data workload codec seed { state with core := core', nodes := nodes }

/-- The sums of virtual time that a run forms: the horizon, the firing times of the timers that are
set, the delivery times of the messages that the network accepts, and the times of the operations
that are issued. -/
inductive Sums (N : Node) (data : PlanData) (workload : Option Strategy)
    (codec : Option (ClientCodec N)) (seed : Seed) : Duration → Duration → Prop
  | horizon : Sums N data workload codec seed (latestFault (horizonFaults data)) (.fromSecs 10)
  | moment {m : Moment N} {a b : Duration} (h : Happens N data workload codec seed m)
      (hadds : m.Adds a b) : Sums N data workload codec seed a b
  | issue {state : RunState N} {p : ℕ} (h : Pumped N data workload codec seed state)
      (hp : p < state.core.nodeCount.toNat) (hissues : state.Issues p) :
      Sums N data workload codec seed state.core.now (.fromMillis 1)

section Runs

variable {data : PlanData} {workload : Option Strategy} {seed : Seed}

/-- A run overflows exactly when a sum that it forms is not representable. -/
theorem exists_overflow_iff :
    (∃ fuel nodeDef, runDeterministic fuel data nodeDef workload codec seed = .error .overflow) ↔
      ∃ a b, Sums N data workload codec seed a b ∧ ¬Fits a b := by
  rw [runDeterministic_eq_error_iff (by decide), prepareCore_eq_error_iff,
    runHorizon_eq_error_iff]
  simp only [startRun_overflows_iff, handle_overflows_iff, pumpClientOps_overflows_iff]
  constructor
  · rintro (hhorizon | ⟨prepared, hprepare, (⟨m, hm, a, b, hadds, hfits⟩ |
      ⟨core, nodes, hnodes, p, hp, hissues, hfits⟩) | ⟨started, hstart, state, event, popped, core,
        hreach, hfires, ⟨m, hm, a, b, hadds, hfits⟩ |
          ⟨core', nodes, hdispatch, p, hp, hissues, hfits⟩⟩⟩)
    · exact ⟨_, _, .horizon, hhorizon⟩
    · exact ⟨a, b, .moment (.start hprepare hm) hadds, hfits⟩
    · exact ⟨_, _, .issue (.start hprepare hnodes) hp hissues, hfits⟩
    · exact ⟨a, b, .moment (.fire hprepare hstart hreach hfires hm) hadds, hfits⟩
    · exact ⟨_, _, .issue (.fire hprepare hstart hreach hfires hdispatch) hp hissues, hfits⟩
  · rintro ⟨a, b, hsum, hfits⟩
    cases hsum with
    | horizon => exact .inl hfits
    | moment hhappens hadds =>
      cases hhappens with
      | start hprepare hm => exact .inr ⟨_, hprepare, .inl (.inl ⟨_, hm, a, b, hadds, hfits⟩)⟩
      | fire hprepare hstart hreach hfires hm =>
        exact .inr ⟨_, hprepare, .inr ⟨_, hstart, _, _, _, _, hreach, hfires,
          .inl ⟨_, hm, a, b, hadds, hfits⟩⟩⟩
    | issue hpumped hp hissues =>
      cases hpumped with
      | start hprepare hnodes =>
        exact .inr ⟨_, hprepare, .inl (.inr ⟨_, _, hnodes, _, hp, hissues, hfits⟩)⟩
      | fire hprepare hstart hreach hfires hdispatch =>
        exact .inr ⟨_, hprepare, .inr ⟨_, hstart, _, _, _, _, hreach, hfires,
          .inr ⟨_, _, hdispatch, _, hp, hissues, hfits⟩⟩⟩

theorem Pumped.inSetting {state : RunState N} (h : Pumped N data workload codec seed state) :
    InSetting data seed state.core := by
  cases h with
  | start hprepare hnodes => exact inSetting_startNodes hprepare hnodes
  | fire hprepare hstart hreach hfires hdispatch =>
    exact (hfires.inSetting (hreach.inSetting hprepare hstart)).1.congr
      (sameSetting_of_dispatch hdispatch)

/-- The largest delay of a model bounds every delay that is drawn. -/
theorem nanos_delayDraw_le (core : SchedCore N) :
    (Duration.fromMillis core.delayDraw.1).nanos ≤ maxDelay core.model := by
  rw [Duration.nanos_fromMillis]
  exact Nat.mul_le_mul_right _ (delayDraw_mem core).2

/-- The sums of a run are representable when its horizon leaves room for a millisecond, for the
delays of the network, and for the spans of the timers that are set. -/
theorem Sums.fits {a b : Duration} (h : Sums N data workload codec seed a b) {horizon : Duration}
    (hhorizon : runHorizon data = .ok horizon) (hpump : Fits horizon (.fromMillis 1))
    (hnetwork : ∀ prepared : SchedCore N, prepareCore N data seed = .ok prepared →
      horizon.nanos + maxDelay prepared.model ≤ maxNanos)
    (htimers : ∀ m, Happens N data workload codec seed m → ∀ node timer after,
      m.act = .setTimer node timer after → Fits horizon after) : Fits a b := by
  have hclock {core : SchedCore N} (hcore : InSetting data seed core) :
      core.now.nanos ≤ horizon.nanos := by
    obtain rfl := Except.ok.inj (hcore.horizon_eq.symm.trans hhorizon)
    exact Duration.le_iff.mp hcore.clock
  cases h with
  | horizon =>
    by_contra hfits
    cases (runHorizon_eq_error_iff.mpr hfits).symm.trans hhorizon
  | moment hhappens hadds =>
    have hsetting := hhappens.inSetting
    cases hadds with
    | timer =>
      exact (Nat.add_le_add_right (hclock hsetting) _).trans (htimers _ hhappens _ _ _ rfl)
    | @delivery core sender recipient msg hconnected hkept =>
      obtain ⟨prepared, hprepare, hmodel⟩ := hsetting.network
      have hdelay := nanos_delayDraw_le core
      change core.model = prepared.model at hmodel
      rw [hmodel] at hdelay
      exact (Nat.add_le_add (hclock hsetting) hdelay).trans (hnetwork prepared hprepare)
  | issue hpumped =>
    exact (Nat.add_le_add_right (hclock hpumped.inSetting) _).trans hpump

/-- No frame of a run is after its horizon. -/
theorem Execution.frame_le_horizon (e : Execution N data workload codec seed) :
    ∀ frame ∈ e.result.worldTrace.frames, frame.1 ≤ e.final.core.horizon := by
  have hclock := e.loop.invariant
    (P := fun s ↦ s.core.now ≤ s.core.horizon ∧ s.core.horizon = e.started.core.horizon)
    (fun s event next hs hturn ↦ by
      obtain ⟨queue, -, hbelow⟩ := hturn.pop_eq
      rw [hturn.now_eq, hturn.horizon_eq]
      exact ⟨hbelow.le, hs.2⟩) ⟨e.started_queueInv.2, rfl⟩
  have hlast : lastState e.started e.steps ∈ e.states := List.mem_of_getElem? e.states_last
  intro frame hframe
  have hpassed := (e.framesInTime _ hlast).passed frame (e.frames_final ▸ hframe)
  rw [e.horizon_eq, ← (hclock _ hlast).2]
  exact hpassed.trans (hclock _ hlast).1

/-- A deadline that ends at the horizon or later never expires: its verdict is that of all frames
from its anchor on. -/
theorem Execution.evaluateOne_far_iff (e : Execution N data workload codec seed)
    {prop : Property N.State} {deadline : Duration} {verdict : Verdict}
    (hkind : prop.kind = .eventuallyWithin deadline)
    (hfar : e.final.core.horizon.nanos ≤
      (anchorTime prop.after e.result.events).nanos + deadline.nanos)
    (h : evaluateOne prop e.result.worldTrace e.result.events = .ok verdict) :
    verdict.isValid = true ↔ ∃ frame ∈ e.result.worldTrace.frames,
      anchorTime prop.after e.result.events ≤ frame.1 ∧
        evalFrame prop e.result.worldTrace frame = true := by
  rw [evaluateOne_within_iff hkind h]
  refine exists_congr fun frame ↦ and_congr_right fun hframe ↦ and_congr_right fun _ ↦ ?_
  exact and_iff_right ((Duration.le_iff.mp (e.frame_le_horizon frame hframe)).trans hfar)

/-- A run does not overflow exactly when every sum that it forms is representable. In every run
that returns, the evaluator does not overflow exactly when the anchor of each deadline leaves room
for it, what is due at the horizon or later is never taken, and a deadline that ends at the horizon
or later never expires. -/
theorem runDeterministic_noOverflow :
    ((∀ fuel nodeDef, runDeterministic fuel data nodeDef workload codec seed ≠ .error .overflow) ↔
      ∀ a b, Sums N data workload codec seed a b → Fits a b) ∧
    ∀ fuel nodeDef run, runDeterministic fuel data nodeDef workload codec seed = .ok (.ok run) →
      (∀ properties, evaluateProperties properties run.worldTrace run.events ≠ .error .overflow ↔
        ∀ prop ∈ properties, ∀ deadline, prop.kind = .eventuallyWithin deadline →
          Fits (anchorTime prop.after run.events) deadline) ∧
      ∃ e : Execution N data workload codec seed, e.result = run ∧
        (∀ event ∈ e.taken, event.fireAt < e.final.core.horizon) ∧
        ∀ (prop : Property N.State) (deadline : Duration) (verdict : Verdict),
          prop.kind = .eventuallyWithin deadline →
          e.final.core.horizon.nanos ≤ (anchorTime prop.after run.events).nanos + deadline.nanos →
          evaluateOne prop run.worldTrace run.events = .ok verdict →
            (verdict.isValid = true ↔ ∃ frame ∈ run.worldTrace.frames,
              anchorTime prop.after run.events ≤ frame.1 ∧
                evalFrame prop run.worldTrace frame = true) := by
  refine ⟨?_, fun fuel nodeDef run hrun ↦ ⟨fun properties ↦ ?_, ?_⟩⟩
  · have hiff := @exists_overflow_iff N codec data workload seed
    have hnot := not_congr hiff
    push Not at hnot
    exact hnot
  · rw [ne_eq, evaluateProperties_eq_error_iff]
    simp only [not_exists, not_and, not_not]
  · obtain ⟨e, rfl⟩ := exists_execution hrun
    exact ⟨e, rfl, e.queueOrdered.below, fun prop deadline verdict hkind hfar hverdict ↦
      e.evaluateOne_far_iff hkind hfar hverdict⟩

end Runs

/-- The counters send nothing and set no timers, and their horizon is at fifteen seconds. -/
theorem counter_noOverflow :
    (∀ fuel nodeDef, runDeterministic fuel counterScript nodeDef none (some counterCodec) ⟨0⟩ ≠
      .error .overflow) ∧
    ∃ run, runDeterministic 8 counterScript none none (some counterCodec) ⟨0⟩ = .ok (.ok run) ∧
      (∀ properties, evaluateProperties properties run.worldTrace run.events ≠ .error .overflow ↔
        ∀ prop ∈ properties, ∀ deadline, prop.kind = .eventuallyWithin deadline →
          Fits (anchorTime prop.after run.events) deadline) ∧
      ∃ e : Execution counter counterScript none (some counterCodec) ⟨0⟩, e.result = run ∧
        (∀ event ∈ e.taken, event.fireAt < e.final.core.horizon) ∧
        ∀ (prop : Property counter.State) (deadline : Duration) (verdict : Verdict),
          prop.kind = .eventuallyWithin deadline →
          e.final.core.horizon.nanos ≤ (anchorTime prop.after run.events).nanos + deadline.nanos →
          evaluateOne prop run.worldTrace run.events = .ok verdict →
            (verdict.isValid = true ↔ ∃ frame ∈ run.worldTrace.frames,
              anchorTime prop.after run.events ≤ frame.1 ∧
                evalFrame prop run.worldTrace frame = true) := by
  have hmodel (prepared : SchedCore counter)
      (h : prepareCore counter counterScript ⟨0⟩ = .ok prepared) :
      maxDelay prepared.model = 0 := by
    have hall :
        (prepareCore counter counterScript ⟨0⟩).toOption.map (maxDelay ·.model) = some 0 := by
      decide +kernel
    rw [h] at hall
    exact Option.some.inj hall
  obtain ⟨horizon, hhorizon⟩ : ∃ horizon, runHorizon counterScript = .ok horizon :=
    ⟨_, eq_ok_of_toOption rfl⟩
  have hnanos : horizon.nanos = 15000000000 := by
    have hall : (runHorizon counterScript).toOption.map (·.nanos) = some 15000000000 := by
      decide +kernel
    rw [hhorizon] at hall
    exact Option.some.inj hall
  have hkeeps : KeepsTo counter (fun _ ↦ True) fun _ ↦ False :=
    ⟨fun _ _ _ ↦ trivial, fun _ _ _ _ _ ↦ trivial, fun _ _ _ _ ↦ trivial,
      fun _ _ _ _ _ ↦ trivial⟩
  obtain ⟨hoverflow, hreturned⟩ :=
    @runDeterministic_noOverflow counter (some counterCodec) counterScript none ⟨0⟩
  refine ⟨hoverflow.mpr fun a b hsum ↦ hsum.fits hhorizon ?_ (fun prepared hprepare ↦ ?_)
    fun m hm node timer after hact ↦ ?_, ?_⟩
  · rw [Fits, hnanos]
    decide +kernel
  · rw [hmodel prepared hprepare, hnanos]
    decide +kernel
  · exact ((hkeeps.happens (fun _ _ ↦ trivial) hm).spans node timer after hact).elim
  · obtain ⟨run, hrun⟩ := exists_run_of_isSome (N := counter)
      (x := runDeterministic 8 counterScript none none (some counterCodec) ⟨0⟩) (by decide +kernel)
    exact ⟨run, hrun, hreturned 8 none run hrun⟩

/-- A deadline of the largest duration after a restart. -/
def lateDeadline : Property counter.State :=
  ⟨"late", .eventuallyWithin .maxValue, fun _ ↦ true, some .nodeRejoined⟩

/-- A fault at the largest duration overflows the horizon, a timer of that span overflows once the
clock has moved, and so does a deadline of that span after a restart. -/
theorem farPlans_overflow :
    @runDeterministic counter 8 (counterPlan 1 [⟨.maxValue, .healAll⟩] []) none none none ⟨0⟩ =
        .error .overflow ∧
      @runDeterministic (riser .maxValue) 8 rejoinPlan none none none ⟨0⟩ = .error .overflow ∧
      ∃ run, @runDeterministic counter 8 rejoinPlan none none none ⟨0⟩ = .ok (.ok run) ∧
        evaluateProperties [lateDeadline] run.worldTrace run.events = .error .overflow := by
  refine ⟨eq_error_of_toError (by decide +kernel), eq_error_of_toError (by decide +kernel), ?_⟩
  obtain ⟨run, hrun⟩ := exists_run_of_isSome (N := counter)
    (x := runDeterministic 8 rejoinPlan none none none ⟨0⟩) (by decide +kernel)
  obtain ⟨e, rfl⟩ := exists_execution hrun
  refine ⟨_, hrun, eq_error_of_toError ?_⟩
  exact e.of_compute (f := fun e ↦ toError
    (evaluateProperties [lateDeadline] e.result.worldTrace e.result.events)) 8 (by decide +kernel)

end Propsim.Simulator
