import Propsim.Simulator.CrashWindow
import Propsim.Simulator.Moments

/-!
# The states that a run reaches

The turns of the loop lead from the state in which it starts to the states that it reaches
(`Reaches`), whether or not the run comes to an end there, and the moments at which the nodes call
the scheduler on the way (`Arrives`) are those that happen in the run (`Happens`). The crash windows
are settled turn by turn on the way (`Arrives.spares_iff`), and what a node promises of all its
callbacks (`KeepsTo`) holds at every such moment.
-/

set_option autoImplicit false
set_option relaxedAutoImplicit false

namespace Propsim.Simulator

open Foundation Interchange Propsim.Core

variable {N : Node} {codec : Option (ClientCodec N)} {ops : List FrozenOp}

/-! ### The loop -/

/-- The loop takes an event from the queue and hands it to the driver. -/
inductive Fires (state : RunState N) : Scheduled N → PoppedEvent N → SchedCore N → Prop
  | intro {event : Scheduled N} {queue : PriorityQueue Scheduled.key} {popped : PoppedEvent N}
      {core : SchedCore N} (hpop : state.core.queue.pop = some (event, queue))
      (hbelow : event.fireAt < state.core.horizon)
      (hresolve : SchedCore.resolve { state.core with queue := queue } event =
        (some popped, core)) : Fires state event popped core

theorem Fires.turn {state next : RunState N} {event : Scheduled N} {popped : PoppedEvent N}
    {core : SchedCore N} (h : Fires state event popped core)
    (hhandle : handle codec ops { state with core := core } popped = .ok next) :
    Turn codec ops state event next := by
  cases h with
  | intro hpop hbelow hresolve => exact .fire hpop hbelow hresolve hhandle

/-- The loop reaches a state from another. -/
def Reaches (codec : Option (ClientCodec N)) (ops : List FrozenOp) :
    RunState N → RunState N → Prop :=
  Relation.ReflTransGen fun state next ↦ ∃ event, Turn codec ops state event next

/-- The network of a run never changes. -/
theorem Turn.model_eq {state next : RunState N} {event : Scheduled N}
    (h : Turn codec ops state event next) : next.core.model = state.core.model := by
  cases h with
  | skip hpop hbelow hresolve => exact (resolve_frame hresolve).1
  | fire hpop hbelow hresolve hhandle =>
    exact (sameCluster_handle hhandle).model_eq.trans (resolve_frame hresolve).1

/-- The network and the horizon are the same in every state that the loop reaches. -/
theorem Reaches.keeps {state next : RunState N} (h : Reaches codec ops state next) :
    next.core.model = state.core.model ∧ next.core.horizon = state.core.horizon := by
  induction h with
  | refl => exact ⟨rfl, rfl⟩
  | tail _ hturn ih =>
    obtain ⟨event, hturn⟩ := hturn
    exact ⟨hturn.model_eq.trans ih.1, hturn.horizon_eq.trans ih.2⟩

/-- A loop that ends passes through every state that it reaches. -/
theorem Loop.of_reaches {state started final : RunState N}
    (hreach : Reaches codec ops started state) {steps : List (Scheduled N × RunState N)}
    (h : Loop codec ops started steps final) :
    ∃ before rest, steps = before ++ rest ∧ Loop codec ops state rest final ∧
      loopMoments codec ops started steps =
        loopMoments codec ops started before ++ loopMoments codec ops state rest := by
  induction hreach using Relation.ReflTransGen.head_induction_on generalizing steps with
  | refl => exact ⟨[], steps, rfl, h, rfl⟩
  | head hturn _ ih =>
    obtain ⟨event, hturn⟩ := hturn
    cases h with
    | stop hstops => exact absurd hturn.pop_eq hstops.not_below
    | turn hfirst hrest =>
      obtain ⟨rfl, rfl⟩ := hfirst.unique hturn
      obtain ⟨before, rest, rfl, hloop, hmoments⟩ := ih hrest
      refine ⟨(_, _) :: before, rest, rfl, hloop, ?_⟩
      rw [loopMoments, hmoments, ← List.append_assoc]
      rfl

/-! ### What a callback leaves alone -/

/-- Two cores agree in the clock, the network, the horizon and the size of the cluster. -/
structure SameSetting (core core' : SchedCore N) : Prop where
  now_eq : core'.now = core.now
  model_eq : core'.model = core.model
  horizon_eq : core'.horizon = core.horizon
  nodeCount_eq : core'.nodeCount = core.nodeCount

theorem SameSetting.refl (core : SchedCore N) : SameSetting core core := ⟨rfl, rfl, rfl, rfl⟩

theorem SameSetting.trans {a b c : SchedCore N} (h : SameSetting a b) (h' : SameSetting b c) :
    SameSetting a c :=
  ⟨h'.now_eq.trans h.now_eq, h'.model_eq.trans h.model_eq, h'.horizon_eq.trans h.horizon_eq,
    h'.nodeCount_eq.trans h.nodeCount_eq⟩

theorem CoreSteps.sameSetting {core core' : SchedCore N} (h : CoreSteps core core') :
    SameSetting core core' :=
  ⟨h.sameCluster.now_eq, h.sameCluster.model_eq, (queueProperty_horizon _).coreSteps h rfl,
    (queueProperty_nodeCount _).coreSteps h rfl⟩

theorem sameSetting_openOp (core : SchedCore N) (process : ProcessId) (f : Function)
    (value : Value) : SameSetting core (core.openOp process f value).2 := ⟨rfl, rfl, rfl, rfl⟩

section Moments

variable {core : SchedCore N} {nodes : List (Option N.State)} {m : Moment N}

/-- A moment of what runs from a core on: the setting is that of the core, and no event is taken. -/
structure Moment.Within (m : Moment N) (core : SchedCore N) : Prop where
  setting : SameSetting core m.core
  taken : m.taken = none

theorem Moment.Within.of_setting {core' : SchedCore N} (h : m.Within core')
    (hsame : SameSetting core core') : m.Within core := ⟨hsame.trans h.setting, h.taken⟩

theorem mem_sendMoments {me : NodeId} {msg : N.Msg} {peers : List NodeId}
    (h : m ∈ sendMoments me msg peers core) :
    m.Within core ∧ ∃ peer ∈ peers, m.act = .send me peer msg := by
  induction peers generalizing core with
  | nil => cases h
  | cons peer rest ih =>
    rw [sendMoments, List.mem_cons] at h
    rcases h with rfl | h
    · exact ⟨⟨.refl core, rfl⟩, peer, List.mem_cons_self, rfl⟩
    · cases hsend : core.scheduleDelivery me peer msg with
      | error halt => simp [hsend] at h
      | ok mid =>
        simp only [hsend] at h
        obtain ⟨hwithin, other, hother, hact⟩ := ih h
        exact ⟨hwithin.of_setting (scheduleDelivery_steps hsend).sameSetting, other,
          List.mem_cons_of_mem _ hother, hact⟩

/-- The moments of a callback, by induction on its effects. -/
theorem within_of_mem_effectMoments {me : NodeId} {α : Type}
    {effects : Effects N.Msg N.Timer N.Response α} (h : m ∈ effectMoments codec me effects core) :
    m.Within core := by
  induction effects generalizing core with
  | done => cases h
  | send recipient msg next ih =>
    rw [effectMoments, List.mem_cons] at h
    rcases h with rfl | h
    · exact ⟨.refl core, rfl⟩
    · cases hsend : core.scheduleDelivery me recipient msg with
      | error halt => simp [hsend] at h
      | ok mid =>
        simp only [hsend] at h
        exact (ih h).of_setting (scheduleDelivery_steps hsend).sameSetting
  | broadcast msg next ih =>
    rw [effectMoments, List.mem_append] at h
    rcases h with h | h
    · exact (mem_sendMoments h).1
    · cases hsend : (harnessCtx codec me).broadcast msg core with
      | error halt => simp [hsend] at h
      | ok mid =>
        simp only [hsend] at h
        exact (ih h).of_setting (broadcast_steps hsend).sameSetting
  | setTimer timer after next ih =>
    rw [effectMoments, List.mem_cons] at h
    rcases h with rfl | h
    · exact ⟨.refl core, rfl⟩
    · cases hset : core.armTimer me timer after with
      | error halt => simp [hset] at h
      | ok mid =>
        simp only [hset] at h
        exact (ih h).of_setting (armTimer_steps hset).sameSetting
  | cancelTimer timer next ih =>
    rw [effectMoments, List.mem_cons] at h
    rcases h with rfl | h
    · exact ⟨.refl core, rfl⟩
    · exact (ih h).of_setting (cancelTimer_steps core me timer).sameSetting
  | now next ih => exact ih _ h
  | nextU64 next ih =>
    have hdraw : SameSetting core core.nextU64.2 := ⟨rfl, rfl, rfl, rfl⟩
    exact (ih _ h).of_setting hdraw
  | me next ih => exact ih _ h
  | completeOp token completion next ih =>
    exact (ih h).of_setting (completeOp_steps codec core token completion).sameSetting

theorem within_of_mem_slotMoments {id : NodeId}
    {callback : N.State → Effects N.Msg N.Timer N.Response N.State}
    (h : m ∈ slotMoments codec core nodes id callback) : m.Within core := by
  unfold slotMoments at h
  split at h
  · exact within_of_mem_effectMoments h
  · cases h

theorem within_of_mem_dispatchMoments {popped : PoppedEvent N}
    (h : m ∈ dispatchMoments codec ops core nodes popped) : m.Within core := by
  cases popped with
  | deliver => exact within_of_mem_slotMoments h
  | timer => exact within_of_mem_slotMoments h
  | clientOp process index =>
    simp only [dispatchMoments] at h
    split at h
    · cases h
    rename_i op _
    unfold clientMoments at h
    split at h
    · cases h
    rename_i f typedOp _
    simp only at h
    split at h
    · exact (within_of_mem_effectMoments h).of_setting
        (sameSetting_openOp core ⟨process.id⟩ f op.op)
    · cases h
  | fault rejoined =>
    cases rejoined with
    | none => cases h
    | some id => exact within_of_mem_slotMoments h

theorem within_of_mem_startMoments {ids : List ℕ}
    {state : SchedCore N × List (Option N.State)} (h : m ∈ startMoments codec ids state) :
    m.Within state.1 := by
  induction ids generalizing state with
  | nil => cases h
  | cons id ids ih =>
    rw [startMoments, List.mem_append] at h
    rcases h with h | h
    · exact within_of_mem_slotMoments h
    · cases hstart : dispatchStart codec state.1 state.2 ⟨.ofNat id⟩ with
      | error halt => simp [hstart] at h
      | ok after =>
        simp only [hstart] at h
        exact (ih h).of_setting (runCallback_eq_ok hstart).1.sameSetting

end Moments

/-! ### The setting of a run -/

/-- What holds of the scheduler throughout a run: the clock has not passed the horizon, and the
horizon, the size of the cluster and the network are those of the plan. -/
structure InSetting (data : PlanData) (seed : Seed) (core : SchedCore N) : Prop where
  clock : core.now ≤ core.horizon
  horizon_eq : runHorizon data = .ok core.horizon
  nodeCount_eq : core.nodeCount = nodeCount data
  network : ∃ prepared : SchedCore N, prepareCore N data seed = .ok prepared ∧
    core.model = prepared.model

section Setting

variable {data : PlanData} {workload : Option Strategy} {seed : Seed} {prepared : SchedCore N}
  {started state : RunState N}

theorem InSetting.congr {core core' : SchedCore N} (h : InSetting data seed core)
    (hsame : SameSetting core core') : InSetting data seed core' := by
  refine ⟨?_, ?_, hsame.nodeCount_eq.trans h.nodeCount_eq, ?_⟩
  · rw [hsame.now_eq, hsame.horizon_eq]
    exact h.clock
  · rw [hsame.horizon_eq]
    exact h.horizon_eq
  · rw [hsame.model_eq]
    exact h.network

theorem inSetting_prepared (hprepare : prepareCore N data seed = .ok prepared) :
    InSetting data seed prepared := by
  obtain ⟨hnow, hhorizon, hcount⟩ := prepared_core
    (P := fun core : SchedCore N ↦ core.now = .zero ∧ runHorizon data = .ok core.horizon ∧
      core.nodeCount = nodeCount data)
    (fun _ _ _ h ↦ h) (fun _ _ h ↦ h) hprepare fun _ hhorizon ↦ ⟨rfl, hhorizon, rfl⟩
  exact ⟨hnow ▸ Duration.zero_le _, hhorizon, hcount, prepared, hprepare, rfl⟩

theorem inSetting_startNodes {core : SchedCore N} {nodes : List (Option N.State)}
    (hprepare : prepareCore N data seed = .ok prepared)
    (hnodes : startNodes codec prepared = .ok (core, nodes)) : InSetting data seed core :=
  (inSetting_prepared hprepare).congr (startNodes_steps hnodes).sameSetting

theorem pumpClientOps_setting {next : RunState N} (h : pumpClientOps state = .ok next) :
    SameSetting state.core next.core := by
  rw [(pumpClientOps_frame h).2]
  exact ⟨rfl, rfl, rfl, rfl⟩

theorem inSetting_started (hprepare : prepareCore N data seed = .ok prepared)
    (hstart : startRun codec ops prepared = .ok started) : InSetting data seed started.core := by
  obtain ⟨core, nodes, hnodes, hpump⟩ := startRun_eq_ok.mp hstart
  exact (inSetting_startNodes hprepare hnodes).congr (pumpClientOps_setting hpump)

theorem Fires.inSetting {event : Scheduled N} {popped : PoppedEvent N} {core : SchedCore N}
    (h : Fires state event popped core) (hstate : InSetting data seed state.core) :
    InSetting data seed core ∧ core.now = event.fireAt := by
  obtain ⟨hpop, hbelow, hresolve⟩ := h
  have hsame := sameQueue_resolve hresolve
  have hmodel := (resolve_frame hresolve).1
  refine ⟨⟨?_, ?_, hsame.nodeCount_eq.trans hstate.nodeCount_eq, ?_⟩, hsame.now_eq⟩
  · rw [hsame.now_eq, hsame.horizon_eq]
    exact hbelow.le
  · rw [hsame.horizon_eq]
    exact hstate.horizon_eq
  · rw [hmodel]
    exact hstate.network

theorem sameSetting_of_dispatch {core core' : SchedCore N} {nodes nodes' : List (Option N.State)}
    {popped : PoppedEvent N} (h : dispatch codec ops core nodes popped = .ok (core', nodes')) :
    SameSetting core core' := by
  rcases dispatch_steps h with ⟨hsteps, -⟩ | ⟨process, index, op, f, -, -, hsteps⟩
  · exact hsteps.sameSetting
  · exact (sameSetting_openOp core ⟨process.id⟩ f op.op).trans hsteps.sameSetting

theorem Turn.inSetting {next : RunState N} {event : Scheduled N}
    (h : Turn codec ops state event next) (hstate : InSetting data seed state.core) :
    InSetting data seed next.core := by
  obtain ⟨queue, -, hbelow⟩ := h.pop_eq
  refine ⟨?_, ?_, ?_, ?_⟩
  · rw [h.now_eq, h.horizon_eq]
    exact hbelow.le
  · rw [h.horizon_eq]
    exact hstate.horizon_eq
  · exact ((queueProperty_nodeCount _).turn h fun _ _ _ ↦ rfl).trans hstate.nodeCount_eq
  · rw [h.model_eq]
    exact hstate.network

/-- The setting holds in every state that a run reaches. -/
theorem Reaches.inSetting (h : Reaches codec ops started state)
    (hprepare : prepareCore N data seed = .ok prepared)
    (hstart : startRun codec ops prepared = .ok started) : InSetting data seed state.core := by
  induction h with
  | refl => exact inSetting_started hprepare hstart
  | tail _ hturn ih =>
    obtain ⟨event, hturn⟩ := hturn
    exact hturn.inSetting ih

end Setting

/-! ### The moments that happen -/

/-- A moment at which a run calls the scheduler: in the start of a node, or in the callback that an
event runs in a state that the loop reaches. -/
inductive Happens (N : Node) (data : PlanData) (workload : Option Strategy)
    (codec : Option (ClientCodec N)) (seed : Seed) : Moment N → Prop
  | start {prepared : SchedCore N} {m : Moment N}
      (hprepare : prepareCore N data seed = .ok prepared)
      (hmoment : m ∈ startMoments codec (List.range prepared.nodeCount.toNat)
        (prepared, List.replicate prepared.nodeCount.toNat (some N.default))) :
      Happens N data workload codec seed m
  | fire {prepared core : SchedCore N} {started state : RunState N} {event : Scheduled N}
      {popped : PoppedEvent N} {m : Moment N} (hprepare : prepareCore N data seed = .ok prepared)
      (hstart : startRun codec (resolveOps data workload seed) prepared = .ok started)
      (hreach : Reaches codec (resolveOps data workload seed) started state)
      (hfires : Fires state event popped core)
      (hmoment : m ∈ dispatchMoments codec (resolveOps data workload seed) core state.nodes
        popped) :
      Happens N data workload codec seed m

section Executions

variable {data : PlanData} {workload : Option Strategy} {seed : Seed} {m : Moment N}

/-- A moment that happens in a run whose loop ends is one of its moments. -/
theorem Execution.mem_moments (e : Execution N data workload codec seed)
    (h : Happens N data workload codec seed m) : m ∈ e.moments := by
  cases h with
  | start hprepare hmoment =>
    obtain rfl := Except.ok.inj (e.prepare_eq.symm.trans hprepare)
    exact List.mem_append_left _ hmoment
  | fire hprepare hstart hreach hfires hmoment =>
    obtain rfl := Except.ok.inj (e.prepare_eq.symm.trans hprepare)
    obtain rfl := Except.ok.inj (e.start_eq.symm.trans hstart)
    obtain ⟨before, rest, -, hloop, hmoments⟩ := Loop.of_reaches hreach e.loop
    refine List.mem_append_right _ ?_
    rw [hmoments]
    refine List.mem_append_right _ ?_
    obtain ⟨hpop, hbelow, hresolve⟩ := hfires
    generalize e.final = final at hloop
    cases hloop with
    | stop hstops => exact absurd ⟨_, hpop, hbelow⟩ hstops.not_below
    | turn =>
      refine List.mem_append_left _ ?_
      rw [turnMoments, hpop]
      simp only [hresolve]
      exact List.mem_cons_of_mem _ hmoment

/-- The setting of a run holds at every moment that happens. -/
theorem Happens.inSetting (h : Happens N data workload codec seed m) :
    InSetting data seed m.core := by
  cases h with
  | start hprepare hmoment =>
    exact (inSetting_prepared hprepare).congr (within_of_mem_startMoments hmoment).setting
  | fire hprepare hstart hreach hfires hmoment =>
    exact (hfires.inSetting (hreach.inSetting hprepare hstart)).1.congr
      (within_of_mem_dispatchMoments hmoment).setting

end Executions

/-! ### The way to a state -/

/-- The loop of a run reaches a state after the moments of the start and of its turns. -/
inductive Arrives (codec : Option (ClientCodec N)) (ops : List FrozenOp) (prepared : SchedCore N)
    (started : RunState N) : List (Moment N) → RunState N → Prop
  | start : Arrives codec ops prepared started
      (startMoments codec (List.range prepared.nodeCount.toNat)
        (prepared, List.replicate prepared.nodeCount.toNat (some N.default))) started
  | turn {log : List (Moment N)} {state next : RunState N} {event : Scheduled N}
      (harrives : Arrives codec ops prepared started log state)
      (hturn : Turn codec ops state event next) :
      Arrives codec ops prepared started (log ++ turnMoments codec ops state) next

section Arrivals

variable {prepared : SchedCore N} {started state : RunState N} {log : List (Moment N)}

theorem Arrives.reaches (h : Arrives codec ops prepared started log state) :
    Reaches codec ops started state := by
  induction h with
  | start => exact .refl
  | turn _ hturn ih => exact ih.tail ⟨_, hturn⟩

theorem Reaches.arrives (h : Reaches codec ops started state) (prepared : SchedCore N) :
    ∃ log, Arrives codec ops prepared started log state := by
  induction h with
  | refl => exact ⟨_, .start⟩
  | tail _ hturn ih =>
    obtain ⟨log, harrives⟩ := ih
    obtain ⟨event, hturn⟩ := hturn
    exact ⟨_, harrives.turn hturn⟩

/-- The moments on the way lead from the prepared scheduler to the state. -/
theorem Arrives.moments_steps (h : Arrives codec ops prepared started log state)
    (hstart : startRun codec ops prepared = .ok started) :
    MomentSteps ([], prepared) (log, state.core) := by
  induction h with
  | start =>
    obtain ⟨core, nodes, hnodes, hpump⟩ := startRun_eq_ok.mp hstart
    have hmoments := startMoments_steps [] hnodes
    rw [List.nil_append] at hmoments
    exact hmoments.trans (pumpClientOps_moments _ hpump)
  | turn _ hturn ih => exact ih.trans (hturn.moments_steps _)

/-- The course of a run to a state that it reaches, whether or not it comes to an end. -/
def Arrives.course {data : PlanData} {seed : Seed}
    (h : Arrives codec ops prepared started log state)
    (hprepare : prepareCore N data seed = .ok prepared)
    (hstart : startRun codec ops prepared = .ok started) : Course N data seed :=
  ⟨prepared, log, state.core, hprepare, h.moments_steps hstart⟩

/-- The moments of a turn are the taking of its event and those of the callback that it runs. -/
theorem Turn.mem_moments {next : RunState N} {event : Scheduled N}
    (h : Turn codec ops state event next) {m : Moment N} (hm : m ∈ turnMoments codec ops state) :
    m = ⟨state.core, .take event⟩ ∨ m.taken = none ∧ ∃ popped core,
      Fires state event popped core ∧ m ∈ dispatchMoments codec ops core state.nodes popped := by
  obtain ⟨queue, hpop, hbelow⟩ := h.pop_eq
  rw [turnMoments, hpop, List.mem_cons] at hm
  refine hm.imp_right fun hm ↦ ?_
  cases hresolve : SchedCore.resolve { state.core with queue := queue } event with
  | mk popped core =>
    cases popped with
    | none => simp [hresolve] at hm
    | some popped =>
      simp only [hresolve] at hm
      exact ⟨(within_of_mem_dispatchMoments hm).taken, popped, core,
        .intro hpop hbelow hresolve, hm⟩

/-- An event that was taken on the way was taken in a turn. -/
theorem Arrives.exists_turn (h : Arrives codec ops prepared started log state)
    {event : Scheduled N} (hevent : event ∈ takenIn log) :
    ∃ before at' next, Arrives codec ops prepared started before at' ∧
      Turn codec ops at' event next := by
  induction h with
  | start =>
    obtain ⟨m, hm, hact⟩ := mem_takenIn.mp hevent
    have hnone := (within_of_mem_startMoments hm).taken
    rw [Moment.taken_eq_some.mpr hact] at hnone
    cases hnone
  | @turn log state next other harrives hturn ih =>
    rw [takenIn, List.filterMap_append, List.mem_append] at hevent
    refine hevent.elim ih fun hin ↦ ?_
    obtain ⟨m, hm, htaken⟩ := List.mem_filterMap.mp hin
    rcases hturn.mem_moments hm with rfl | ⟨hnone, -⟩
    · obtain rfl : other = event := Option.some.inj htaken
      exact ⟨log, state, next, harrives, hturn⟩
    · rw [hnone] at htaken
      cases htaken

/-- A moment on the way that takes no event happens in the run. -/
theorem Arrives.happens {data : PlanData} {workload : Option Strategy} {seed : Seed}
    (h : Arrives codec (resolveOps data workload seed) prepared started log state)
    (hprepare : prepareCore N data seed = .ok prepared)
    (hstart : startRun codec (resolveOps data workload seed) prepared = .ok started)
    {m : Moment N} (hm : m ∈ log) (hact : ∀ event, m.act ≠ .take event) :
    Happens N data workload codec seed m := by
  induction h with
  | start => exact .start hprepare hm
  | @turn log state next event harrives hturn ih =>
    refine (List.mem_append.mp hm).elim ih fun hm ↦ ?_
    rcases hturn.mem_moments hm with rfl | ⟨-, popped, core, hfires, hmoment⟩
    · exact absurd rfl (hact event)
    · exact .fire hprepare hstart harrives.reaches hfires hmoment

theorem Arrives.loop {final : RunState N} {steps : List (Scheduled N × RunState N)}
    (hloop : Loop codec ops state steps final)
    (h : Arrives codec ops prepared started log state) :
    Arrives codec ops prepared started (log ++ loopMoments codec ops state steps)
      (lastState state steps) := by
  induction hloop generalizing log with
  | stop =>
    rw [loopMoments, List.append_nil]
    exact h
  | turn hturn _ ih =>
    rw [lastState_cons, loopMoments, ← List.append_assoc]
    exact ih (h.turn hturn)

/-- An execution is a way to the state in which its loop ends. -/
theorem Execution.arrives {data : PlanData} {workload : Option Strategy} {seed : Seed}
    (e : Execution N data workload codec seed) :
    Arrives codec (resolveOps data workload seed) e.prepared e.started e.moments
      (lastState e.started e.steps) := Arrives.loop e.loop .start

/-! ### Crash windows on the way -/

/-- The moments of a turn take its event. -/
theorem Turn.takenIn_moments {next : RunState N} {event : Scheduled N}
    (h : Turn codec ops state event next) : takenIn (turnMoments codec ops state) = [event] := by
  obtain ⟨queue, hpop, -⟩ := h.pop_eq
  rw [turnMoments, hpop]
  refine congrArg (event :: ·) (List.filterMap_eq_nil_iff.mpr fun m hm ↦ ?_)
  cases hresolve : SchedCore.resolve { state.core with queue := queue } event with
  | mk popped core =>
    cases popped with
    | none => simp [hresolve] at hm
    | some popped =>
      simp only [hresolve] at hm
      exact (within_of_mem_dispatchMoments hm).taken

theorem Arrives.occupied (h : Arrives codec ops prepared started log state)
    (hstart : startRun codec ops prepared = .ok started) : Occupied state.nodes := by
  induction h with
  | start => exact occupied_started hstart
  | turn _ hturn ih => exact hturn.occupied ih

section Prepared

variable {data : PlanData} {seed : Seed}

/-- The history and the table of pending operations belong together on the way. -/
theorem Arrives.recorded (h : Arrives codec ops prepared started log state)
    (hprepare : prepareCore N data seed = .ok prepared)
    (hstart : startRun codec ops prepared = .ok started) : Recorded state.core := by
  have hinv : (∃ taken, QueueInv taken state.core) ∧ Gated state.scheduled state.core := by
    induction h with
    | start =>
      exact ⟨⟨[], (queueInv_started hprepare hstart).1⟩, gated_started hprepare hstart⟩
    | turn _ hturn ih =>
      obtain ⟨⟨taken, hqueue⟩, hgated⟩ := ih
      exact ⟨⟨_, hturn.queueInv hqueue⟩, hturn.gated hqueue.later hgated⟩
  exact hinv.2.recorded

/-- A node is in the crashed set exactly when a crash of it was taken on the way and no restart
since. -/
theorem Arrives.mem_crashed_iff (h : Arrives codec ops prepared started log state)
    (hprepare : prepareCore N data seed = .ok prepared)
    (hstart : startRun codec ops prepared = .ok started) (n : NodeId) :
    n ∈ state.core.crashed ↔ DownBefore (takenIn log) n (takenIn log).length := by
  induction h with
  | start =>
    rw [crashed_started hprepare hstart]
    refine iff_of_false List.not_mem_nil ?_
    rintro ⟨i, hi, -⟩
    have hnone : takenIn (startMoments codec (List.range prepared.nodeCount.toNat)
        (prepared, List.replicate prepared.nodeCount.toNat (some N.default))) = [] :=
      List.filterMap_eq_nil_iff.mpr fun m hm ↦ (within_of_mem_startMoments hm).taken
    rw [hnone] at hi
    exact Nat.not_lt_zero i hi
  | @turn log state next event _ hturn ih =>
    have htaken : takenIn (log ++ turnMoments codec ops state) = takenIn log ++ [event] := by
      rw [takenIn, List.filterMap_append, ← takenIn, ← takenIn, hturn.takenIn_moments]
    have hlast : (takenIn log ++ [event])[(takenIn log).length]? = some event := by simp
    rw [hturn.mem_crashed_iff, htaken, List.length_append, List.length_singleton,
      downBefore_succ hlast, downBefore_append le_rfl, ih]

/-- On every way through a run, whether or not it comes to an end, the next turn spares the nodes
that are down exactly when it takes no covered operation that is targeted at one of them. Assumes:
every operation that decodes is covered. -/
theorem Arrives.spares_iff (h : Arrives codec ops prepared started log state)
    (hprepare : prepareCore N data seed = .ok prepared)
    (hstart : startRun codec ops prepared = .ok started) {next : RunState N} {event : Scheduled N}
    (hturn : Turn codec ops state event next) {covers : FrozenOp → Prop}
    (hcovers : ∀ op, Decodes codec op → covers op) :
    (∀ n, DownBefore (takenIn log) n (takenIn log).length → event.kind ≠ .fault (.restart n) →
        Spared codec ops covers state event next n) ↔
      ∀ process index op, event.kind = .clientOp process index → ops[index]? = some op →
        covers op → ∀ n ∈ state.core.crashed,
          target op process state.nodes.length ≠ n.id.toNat := by
  rw [← hturn.spares_iff (h.occupied hstart) (h.recorded hprepare hstart) hcovers]
  simp only [h.mem_crashed_iff hprepare hstart]

end Prepared

end Arrivals

/-! ### What a node promises -/

/-- A moment at which messages go to nodes of one kind only and timers are set for spans of one
kind only. -/
structure Moment.Keeps (sends : NodeId → Prop) (timers : Duration → Prop) (m : Moment N) :
    Prop where
  recipients : ∀ sender recipient msg, m.act = .send sender recipient msg → sends recipient
  spans : ∀ node timer after, m.act = .setTimer node timer after → timers after

/-- Every callback of a node, in every state of it, keeps to kinds of recipients and of spans. -/
structure KeepsTo (N : Node) (sends : NodeId → Prop) (timers : Duration → Prop) : Prop where
  onStart : ∀ me now node, (N.onStart node).Only me now sends timers
  onMsg : ∀ me now node sender msg, (N.onMsg node sender msg).Only me now sends timers
  onTimer : ∀ me now node timer, (N.onTimer node timer).Only me now sends timers
  onClientOp : ∀ me now node op token, (N.onClientOp node op token).Only me now sends timers

section Promises

variable {sends : NodeId → Prop} {timers : Duration → Prop} {core : SchedCore N}
  {nodes : List (Option N.State)} {m : Moment N}

/-- A node that does not exist is not among the peers. -/
theorem mem_peers {me peer : NodeId} (h : peer ∈ core.peers me) : peer.id < core.nodeCount := by
  obtain ⟨n, hn, rfl⟩ := List.mem_map.mp (List.mem_filter.mp h).1
  have hlt := List.mem_range.mp hn
  rw [UInt64.lt_iff_toNat_lt]
  change (UInt64.ofNat n).toNat < core.nodeCount.toNat
  rwa [UInt64.toNat_ofNat_of_lt' (hlt.trans core.nodeCount.toNat_lt)]

/-- A callback that keeps to its kinds does so at each of its moments, by induction on its effects.
Assumes: the nodes of the cluster, to which broadcasts go, are of the kind. -/
theorem keeps_of_only {me : NodeId} {now : Duration} {α : Type}
    {effects : Effects N.Msg N.Timer N.Response α} (honly : effects.Only me now sends timers)
    (hnow : core.now = now) (hpeers : ∀ n : NodeId, n.id < core.nodeCount → sends n)
    (hm : m ∈ effectMoments codec me effects core) : m.Keeps sends timers := by
  induction effects generalizing core with
  | done => cases hm
  | send recipient msg next ih =>
    rw [effectMoments, List.mem_cons] at hm
    rcases hm with rfl | hm
    · refine ⟨fun _ _ _ hact ↦ ?_, fun _ _ _ hact ↦ by cases hact⟩
      obtain ⟨-, rfl, -⟩ := Act.send.inj hact
      exact honly.1
    · cases hsend : core.scheduleDelivery me recipient msg with
      | error halt => simp [hsend] at hm
      | ok mid =>
        simp only [hsend] at hm
        have hsame := (scheduleDelivery_steps hsend).sameSetting
        exact ih honly.2 (hsame.now_eq.trans hnow) (hsame.nodeCount_eq ▸ hpeers) hm
  | broadcast msg next ih =>
    rw [effectMoments, List.mem_append] at hm
    rcases hm with hm | hm
    · obtain ⟨-, peer, hpeer, hact⟩ := mem_sendMoments hm
      refine ⟨fun _ _ _ hact' ↦ ?_, fun _ _ _ hact' ↦ by cases hact.symm.trans hact'⟩
      obtain ⟨-, rfl, -⟩ := Act.send.inj (hact.symm.trans hact')
      exact hpeers peer (mem_peers hpeer)
    · cases hsend : (harnessCtx codec me).broadcast msg core with
      | error halt => simp [hsend] at hm
      | ok mid =>
        simp only [hsend] at hm
        have hsame := (broadcast_steps hsend).sameSetting
        exact ih honly (hsame.now_eq.trans hnow) (hsame.nodeCount_eq ▸ hpeers) hm
  | setTimer timer after next ih =>
    rw [effectMoments, List.mem_cons] at hm
    rcases hm with rfl | hm
    · refine ⟨fun _ _ _ hact ↦ (by cases hact), fun _ _ _ hact ↦ ?_⟩
      obtain ⟨-, -, rfl⟩ := Act.setTimer.inj hact
      exact honly.1
    · cases hset : core.armTimer me timer after with
      | error halt => simp [hset] at hm
      | ok mid =>
        simp only [hset] at hm
        have hsame := (armTimer_steps hset).sameSetting
        exact ih honly.2 (hsame.now_eq.trans hnow) (hsame.nodeCount_eq ▸ hpeers) hm
  | cancelTimer timer next ih =>
    rw [effectMoments, List.mem_cons] at hm
    rcases hm with rfl | hm
    · exact ⟨fun _ _ _ hact ↦ (by cases hact), fun _ _ _ hact ↦ by cases hact⟩
    · exact @ih (core.cancelTimer me timer) honly hnow hpeers hm
  | now next ih => exact ih _ (hnow ▸ honly) hnow hpeers hm
  | nextU64 next ih => exact @ih _ core.nextU64.2 (honly _) hnow hpeers hm
  | me next ih => exact ih _ honly hnow hpeers hm
  | completeOp token completion next ih =>
    have hsame := (completeOp_steps codec core token completion).sameSetting
    exact ih honly (hsame.now_eq.trans hnow) (hsame.nodeCount_eq ▸ hpeers) hm

theorem keeps_of_mem_slotMoments {id : NodeId}
    {callback : N.State → Effects N.Msg N.Timer N.Response N.State}
    (honly : ∀ node, (callback node).Only id core.now sends timers)
    (hpeers : ∀ n : NodeId, n.id < core.nodeCount → sends n)
    (hm : m ∈ slotMoments codec core nodes id callback) : m.Keeps sends timers := by
  unfold slotMoments at hm
  split at hm
  · exact keeps_of_only (honly _) rfl hpeers hm
  · cases hm

/-- The moments of an event keep to the kinds that the node does. -/
theorem KeepsTo.dispatch (h : KeepsTo N sends timers)
    (hpeers : ∀ n : NodeId, n.id < core.nodeCount → sends n) {popped : PoppedEvent N}
    (hm : m ∈ dispatchMoments codec ops core nodes popped) : m.Keeps sends timers := by
  cases popped with
  | deliver sender recipient msg =>
    exact keeps_of_mem_slotMoments (fun node ↦ h.onMsg recipient core.now node sender msg) hpeers hm
  | timer id timer =>
    exact keeps_of_mem_slotMoments (fun node ↦ h.onTimer id core.now node timer) hpeers hm
  | clientOp process index =>
    simp only [dispatchMoments] at hm
    split at hm
    · cases hm
    rename_i op _
    unfold clientMoments at hm
    split at hm
    · cases hm
    rename_i f typedOp _
    simp only at hm
    split at hm
    · have hopened := sameSetting_openOp core ⟨process.id⟩ f op.op
      exact keeps_of_only (h.onClientOp _ core.now _ _ _) hopened.now_eq
        (hopened.nodeCount_eq ▸ hpeers) hm
    · cases hm
  | fault rejoined =>
    cases rejoined with
    | none => cases hm
    | some id => exact keeps_of_mem_slotMoments (fun node ↦ h.onStart id core.now node) hpeers hm

theorem KeepsTo.start (h : KeepsTo N sends timers) {ids : List ℕ}
    {state : SchedCore N × List (Option N.State)}
    (hpeers : ∀ n : NodeId, n.id < state.1.nodeCount → sends n)
    (hm : m ∈ startMoments codec ids state) : m.Keeps sends timers := by
  induction ids generalizing state with
  | nil => cases hm
  | cons id ids ih =>
    rw [startMoments, List.mem_append] at hm
    rcases hm with hm | hm
    · exact keeps_of_mem_slotMoments (fun node ↦ h.onStart _ state.1.now node) hpeers hm
    · cases hstart : dispatchStart codec state.1 state.2 ⟨.ofNat id⟩ with
      | error halt => simp [hstart] at hm
      | ok after =>
        simp only [hstart] at hm
        have hsame := (runCallback_eq_ok hstart).1.sameSetting
        exact ih (hsame.nodeCount_eq ▸ hpeers) hm

/-- What a node promises of its callbacks holds at every moment of a run. -/
theorem KeepsTo.happens (h : KeepsTo N sends timers) {data : PlanData}
    {workload : Option Strategy} {seed : Seed}
    (hpeers : ∀ n : NodeId, n.id < nodeCount data → sends n)
    (hm : Happens N data workload codec seed m) : m.Keeps sends timers := by
  cases hm with
  | start hprepare hmoment =>
    exact h.start ((inSetting_prepared hprepare).nodeCount_eq ▸ hpeers) hmoment
  | fire hprepare hstart hreach hfires hmoment =>
    have hcore := (hfires.inSetting (hreach.inSetting hprepare hstart)).1
    exact h.dispatch (hcore.nodeCount_eq ▸ hpeers) hmoment

end Promises

end Propsim.Simulator
