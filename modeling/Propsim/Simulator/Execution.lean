import Propsim.Simulator.Run

/-!
# Runs as sequences of turns

The main loop takes one event after the other from the queue: an event that `pop` skips, or one
that it hands to the driver. A `Turn` is one such step and a `Loop` is a run of them to its end.
`mainLoop_eq_ok_iff` says that the loops are exactly what `mainLoop` computes with enough fuel, and
`runDeterministic_eq_ok_iff` carries this to a whole run, so that everything proved about an
`Execution` holds of `run_deterministic`.
-/

set_option autoImplicit false
set_option relaxedAutoImplicit false

namespace Propsim.Simulator

open Foundation Interchange Propsim.Core

variable {N : Node} {codec : Option (ClientCodec N)} {ops : List FrozenOp}

/-! ### Turns -/

/-- One event below the horizon is taken from the queue. -/
inductive Turn (codec : Option (ClientCodec N)) (ops : List FrozenOp) :
    RunState N → Scheduled N → RunState N → Prop
  /-- The event is stale, or it is for a crashed node. -/
  | skip {state : RunState N} {event : Scheduled N} {queue : PriorityQueue Scheduled.key}
      {core : SchedCore N} (hpop : state.core.queue.pop = some (event, queue))
      (hbelow : event.fireAt < state.core.horizon)
      (hresolve : SchedCore.resolve { state.core with queue := queue } event = (none, core)) :
      Turn codec ops state event { state with core := core }
  /-- The event is handed to the driver. -/
  | fire {state : RunState N} {event : Scheduled N} {queue : PriorityQueue Scheduled.key}
      {core : SchedCore N} {popped : PoppedEvent N} {next : RunState N}
      (hpop : state.core.queue.pop = some (event, queue))
      (hbelow : event.fireAt < state.core.horizon)
      (hresolve : SchedCore.resolve { state.core with queue := queue } event = (some popped, core))
      (hhandle : handle codec ops { state with core := core } popped = .ok next) :
      Turn codec ops state event next

/-- The loop ends: the queue is drained, or its next event is not below the horizon. -/
inductive Stops : SchedCore N → SchedCore N → Prop
  | drained {core : SchedCore N} (hpop : core.queue.pop = none) : Stops core core
  | horizon {core : SchedCore N} {event : Scheduled N} {queue : PriorityQueue Scheduled.key}
      (hpop : core.queue.pop = some (event, queue)) (hpast : core.horizon ≤ event.fireAt) :
      Stops core { core with queue := queue, now := core.horizon }

/-- A run of turns from a state to the end of the loop, with each event taken and the state after
its turn. -/
inductive Loop (codec : Option (ClientCodec N)) (ops : List FrozenOp) :
    RunState N → List (Scheduled N × RunState N) → RunState N → Prop
  | stop {state : RunState N} {core : SchedCore N} (hstops : Stops state.core core) :
      Loop codec ops state [] { state with core := core }
  | turn {state next final : RunState N} {event : Scheduled N}
      {steps : List (Scheduled N × RunState N)} (hturn : Turn codec ops state event next)
      (hrest : Loop codec ops next steps final) :
      Loop codec ops state ((event, next) :: steps) final

/-- The event of a turn is the head of the queue and lies below the horizon. -/
theorem Turn.pop_eq {state next : RunState N} {event : Scheduled N}
    (h : Turn codec ops state event next) :
    ∃ queue, state.core.queue.pop = some (event, queue) ∧ event.fireAt < state.core.horizon := by
  cases h with
  | skip hpop hbelow _ => exact ⟨_, hpop, hbelow⟩
  | fire hpop hbelow _ _ => exact ⟨_, hpop, hbelow⟩

/-- A skipped event changes nothing but the clock. -/
theorem resolve_eq_none {core core' : SchedCore N} {event : Scheduled N}
    (h : core.resolve event = (none, core')) : core' = { core with now := event.fireAt } := by
  unfold SchedCore.resolve at h
  cases hkind : event.kind with
  | deliver sender recipient msg =>
    simp only [hkind] at h
    split_ifs at h
    · exact ((Prod.mk.inj h).2).symm
    · simp at h
  | timer node timer gen =>
    simp only [hkind] at h
    split_ifs at h
    · simp at h
    · exact ((Prod.mk.inj h).2).symm
  | clientOp process index => simp [hkind] at h
  | fault action => simp [hkind] at h

/-- A state has one turn. -/
theorem Turn.unique {state next next' : RunState N} {event event' : Scheduled N}
    (h : Turn codec ops state event next) (h' : Turn codec ops state event' next') :
    event = event' ∧ next = next' := by
  cases h with
  | skip hpop hbelow hresolve =>
    cases h' with
    | skip hpop' hbelow' hresolve' =>
      obtain ⟨rfl, rfl⟩ := Prod.mk.inj (Option.some.inj (hpop.symm.trans hpop'))
      obtain ⟨-, rfl⟩ := Prod.mk.inj (hresolve.symm.trans hresolve')
      exact ⟨rfl, rfl⟩
    | fire hpop' hbelow' hresolve' hhandle' =>
      obtain ⟨rfl, rfl⟩ := Prod.mk.inj (Option.some.inj (hpop.symm.trans hpop'))
      cases (Prod.mk.inj (hresolve.symm.trans hresolve')).1
  | fire hpop hbelow hresolve hhandle =>
    cases h' with
    | skip hpop' hbelow' hresolve' =>
      obtain ⟨rfl, rfl⟩ := Prod.mk.inj (Option.some.inj (hpop.symm.trans hpop'))
      cases (Prod.mk.inj (hresolve.symm.trans hresolve')).1
    | fire hpop' hbelow' hresolve' hhandle' =>
      obtain ⟨rfl, rfl⟩ := Prod.mk.inj (Option.some.inj (hpop.symm.trans hpop'))
      obtain ⟨hpopped, rfl⟩ := Prod.mk.inj (hresolve.symm.trans hresolve')
      obtain rfl := Option.some.inj hpopped
      exact ⟨rfl, Except.ok.inj (hhandle.symm.trans hhandle')⟩

/-! ### Turns and the loops of the source -/

variable (codec ops) in
/-- What a call of `pop` and the rest of the run do is a loop from the state before the call.
Assumes: as many iterations as there are events in the queue. -/
theorem loop_of_popLoop {state : RunState N} {bound : ℕ} {popped : Option (PoppedEvent N)}
    {core : SchedCore N} (hbound : state.core.queue.length ≤ bound)
    (h : state.core.popLoop bound = (popped, core)) :
    (popped = none → ∃ steps, Loop codec ops state steps { state with core := core }) ∧
    ∀ event next steps final, popped = some event →
      handle codec ops { state with core := core } event = .ok next →
        Loop codec ops next steps final → ∃ steps', Loop codec ops state steps' final := by
  induction bound generalizing state with
  | zero =>
    obtain ⟨rfl, rfl⟩ := Prod.mk.inj h
    have hempty : state.core.queue.pop = none := by
      rw [PriorityQueue.pop_eq_none_iff]
      exact List.eq_nil_of_length_eq_zero (Nat.le_zero.mp hbound)
    exact ⟨fun _ ↦ ⟨[], .stop (.drained hempty)⟩, by simp⟩
  | succ bound ih =>
    cases hpop : state.core.queue.pop with
    | none =>
      simp only [SchedCore.popLoop, hpop, Prod.mk.injEq] at h
      obtain ⟨rfl, rfl⟩ := h
      exact ⟨fun _ ↦ ⟨[], .stop (.drained hpop)⟩, by simp⟩
    | some taken =>
      obtain ⟨event, queue⟩ := taken
      rw [SchedCore.popLoop_succ hpop] at h
      split_ifs at h with hpast
      · obtain ⟨rfl, rfl⟩ := Prod.mk.inj h
        exact ⟨fun _ ↦ ⟨[], .stop (.horizon hpop hpast)⟩, by simp⟩
      · have hbelow := not_le.mp hpast
        cases hresolve : SchedCore.resolve { state.core with queue := queue } event with
        | mk resolved core' =>
          rw [hresolve] at h
          cases resolved with
          | some fired =>
            obtain ⟨rfl, rfl⟩ := Prod.mk.inj h
            refine ⟨by simp, fun event' next steps final heq hhandle hrest ↦ ?_⟩
            obtain rfl := Option.some.inj heq
            exact ⟨_, .turn (.fire hpop hbelow hresolve hhandle) hrest⟩
          | none =>
            have hlength : ({ state with core := core' } : RunState N).core.queue.length ≤
              bound := by
              have hqueue : core'.queue = queue := by rw [resolve_eq_none hresolve]
              have := PriorityQueue.length_of_pop hpop
              change core'.queue.length ≤ bound
              rw [hqueue]
              omega
            obtain ⟨hnone, hsome⟩ := ih hlength h
            refine ⟨fun hpopped ↦ ?_, fun event' next steps final heq hhandle hrest ↦ ?_⟩
            · obtain ⟨steps, hloop⟩ := hnone hpopped
              exact ⟨_, .turn (.skip hpop hbelow hresolve) hloop⟩
            · obtain ⟨steps', hloop⟩ := hsome event' next steps final heq hhandle hrest
              exact ⟨_, .turn (.skip hpop hbelow hresolve) hloop⟩

/-- A call of `pop` goes on after an event that it skips. -/
theorem pop_of_skip {core core' : SchedCore N} {event : Scheduled N}
    {queue : PriorityQueue Scheduled.key} (hpop : core.queue.pop = some (event, queue))
    (hbelow : event.fireAt < core.horizon)
    (hresolve : SchedCore.resolve { core with queue := queue } event = (none, core')) :
    core.pop = core'.pop := by
  have hqueue : core'.queue = queue := by rw [resolve_eq_none hresolve]
  rw [SchedCore.pop, PriorityQueue.length_of_pop hpop, SchedCore.popLoop_succ hpop,
    if_neg (not_le.mpr hbelow), hresolve, SchedCore.pop, hqueue]

theorem pop_of_fire {core core' : SchedCore N} {event : Scheduled N} {popped : PoppedEvent N}
    {queue : PriorityQueue Scheduled.key} (hpop : core.queue.pop = some (event, queue))
    (hbelow : event.fireAt < core.horizon)
    (hresolve : SchedCore.resolve { core with queue := queue } event = (some popped, core')) :
    core.pop = (some popped, core') := by
  rw [SchedCore.pop, PriorityQueue.length_of_pop hpop, SchedCore.popLoop_succ hpop,
    if_neg (not_le.mpr hbelow), hresolve]

/-- The main loop from the state after a turn is the main loop from the state before it, with one
unit of fuel more when the event is dispatched. -/
theorem mainLoop_of_turn {state next : RunState N} {event : Scheduled N}
    (h : Turn codec ops state event next) (fuel : ℕ) :
    ∃ fuel', mainLoop codec ops fuel' state = mainLoop codec ops fuel next := by
  cases h with
  | skip hpop hbelow hresolve =>
    refine ⟨fuel, ?_⟩
    cases fuel with
    | zero => rfl
    | succ fuel => simp only [mainLoop, pop_of_skip hpop hbelow hresolve]
  | fire hpop hbelow hresolve hhandle =>
    refine ⟨fuel + 1, ?_⟩
    simp only [mainLoop, pop_of_fire hpop hbelow hresolve, hhandle]

/-- A loop is what the main loop computes with enough fuel. -/
theorem mainLoop_of_loop {state final : RunState N} {steps : List (Scheduled N × RunState N)}
    (h : Loop codec ops state steps final) : ∃ fuel, mainLoop codec ops fuel state = .ok final := by
  induction h with
  | @stop state core hstops =>
    refine ⟨1, ?_⟩
    have hpop : state.core.pop = (none, core) := by
      cases hstops with
      | drained hpop =>
        have hempty := PriorityQueue.pop_eq_none_iff.mp hpop
        simp [SchedCore.pop, PriorityQueue.length, hempty, SchedCore.popLoop]
      | horizon hpop hpast =>
        rw [SchedCore.pop, PriorityQueue.length_of_pop hpop, SchedCore.popLoop_succ hpop,
          if_pos hpast]
    simp only [mainLoop, hpop]
  | turn hturn _ ih =>
    obtain ⟨fuel, hfuel⟩ := ih
    obtain ⟨fuel', heq⟩ := mainLoop_of_turn hturn fuel
    exact ⟨fuel', heq.trans hfuel⟩

/-- The main loop ends in a state exactly when some run of turns does. -/
theorem mainLoop_eq_ok_iff {state final : RunState N} :
    (∃ fuel, mainLoop codec ops fuel state = .ok final) ↔
      ∃ steps, Loop codec ops state steps final := by
  constructor
  · rintro ⟨fuel, h⟩
    induction fuel generalizing state with
    | zero => simp [mainLoop] at h
    | succ fuel ih =>
      rw [mainLoop] at h
      cases hpop : state.core.pop with
      | mk popped core =>
        obtain ⟨hnone, hsome⟩ := loop_of_popLoop codec ops le_rfl hpop
        rw [hpop] at h
        cases popped with
        | none =>
          obtain rfl := Except.ok.inj h
          exact hnone rfl
        | some event =>
          cases hhandle : handle codec ops { state with core := core } event with
          | error halt => simp [hhandle] at h
          | ok next =>
            simp only [hhandle] at h
            obtain ⟨steps, hloop⟩ := ih h
            exact hsome event next steps final rfl hhandle hloop
  · rintro ⟨steps, hloop⟩
    exact mainLoop_of_loop hloop

/-! ### Computing the turns -/

/-- The turns of a loop, computed with fuel. -/
def runTurns (codec : Option (ClientCodec N)) (ops : List FrozenOp) :
    ℕ → RunState N → Option (List (Scheduled N × RunState N) × RunState N)
  | 0, _ => none
  | fuel + 1, state =>
    match state.core.queue.pop with
    | none => some ([], state)
    | some (event, queue) =>
      if state.core.horizon ≤ event.fireAt then
        some ([], { state with
          core := { state.core with queue := queue, now := state.core.horizon } })
      else
        match SchedCore.resolve { state.core with queue := queue } event with
        | (none, core) =>
          let next := { state with core := core }
          (runTurns codec ops fuel next).map fun rest ↦ ((event, next) :: rest.1, rest.2)
        | (some popped, core) =>
          match handle codec ops { state with core := core } popped with
          | .error _ => none
          | .ok next =>
            (runTurns codec ops fuel next).map fun rest ↦ ((event, next) :: rest.1, rest.2)

theorem loop_of_runTurns {fuel : ℕ} {state final : RunState N}
    {steps : List (Scheduled N × RunState N)}
    (h : runTurns codec ops fuel state = some (steps, final)) :
    Loop codec ops state steps final := by
  induction fuel generalizing state steps with
  | zero => simp [runTurns] at h
  | succ fuel ih =>
    rw [runTurns] at h
    split at h
    · rename_i hpop
      obtain ⟨rfl, rfl⟩ := Prod.mk.inj (Option.some.inj h)
      exact .stop (.drained hpop)
    rename_i event queue hpop
    split_ifs at h with hpast
    · obtain ⟨rfl, rfl⟩ := Prod.mk.inj (Option.some.inj h)
      exact .stop (.horizon hpop hpast)
    split at h
    · rename_i core hresolve
      obtain ⟨⟨rest, final'⟩, hrest, heq⟩ := Option.map_eq_some_iff.mp h
      obtain ⟨rfl, rfl⟩ := Prod.mk.inj heq
      exact .turn (.skip hpop (not_le.mp hpast) hresolve) (ih hrest)
    · rename_i popped core hresolve
      split at h
      · simp at h
      · rename_i next hhandle
        obtain ⟨⟨rest, final'⟩, hrest, heq⟩ := Option.map_eq_some_iff.mp h
        obtain ⟨rfl, rfl⟩ := Prod.mk.inj heq
        exact .turn (.fire hpop (not_le.mp hpast) hresolve hhandle) (ih hrest)

theorem runTurns_of_loop {state final : RunState N} {steps : List (Scheduled N × RunState N)}
    (h : Loop codec ops state steps final) :
    ∀ fuel, steps.length < fuel → runTurns codec ops fuel state = some (steps, final) := by
  induction h with
  | stop hstops =>
    intro fuel hfuel
    obtain ⟨fuel, rfl⟩ := Nat.exists_eq_succ_of_ne_zero hfuel.ne'
    cases hstops with
    | drained hpop => simp only [runTurns, hpop]
    | horizon hpop hpast => simp only [runTurns, hpop, if_pos hpast]
  | turn hturn _ ih =>
    intro fuel hfuel
    obtain ⟨fuel, rfl⟩ := Nat.exists_eq_succ_of_ne_zero (Nat.ne_zero_of_lt hfuel)
    have hrest := ih fuel (by simpa using hfuel)
    cases hturn with
    | skip hpop hbelow hresolve =>
      simp only [runTurns, hpop, if_neg (not_le.mpr hbelow), hresolve, hrest, Option.map_some]
    | fire hpop hbelow hresolve hhandle =>
      simp only [runTurns, hpop, if_neg (not_le.mpr hbelow), hresolve, hhandle, hrest,
        Option.map_some]

/-- A state has one loop. -/
theorem Loop.unique {state final final' : RunState N}
    {steps steps' : List (Scheduled N × RunState N)}
    (h : Loop codec ops state steps final) (h' : Loop codec ops state steps' final') :
    steps = steps' ∧ final = final' := by
  have hfirst := runTurns_of_loop h (max steps.length steps'.length + 1) (by omega)
  have hsecond := runTurns_of_loop h' (max steps.length steps'.length + 1) (by omega)
  exact Prod.mk.inj (Option.some.inj (hfirst.symm.trans hsecond))

/-- What every turn of a loop keeps holds in every state of it. -/
theorem Loop.invariant_taken {P : RunState N → Prop} {state final : RunState N}
    {steps : List (Scheduled N × RunState N)} (h : Loop codec ops state steps final)
    (hturn : ∀ s event next, event ∈ steps.map (·.1) → P s → Turn codec ops s event next → P next)
    (hstate : P state) : ∀ s ∈ state :: steps.map (·.2), P s := by
  induction h with
  | stop => simpa using hstate
  | turn hfirst _ ih =>
    intro s hs
    rcases List.mem_cons.mp hs with rfl | hs
    · exact hstate
    · refine ih (fun s event next hevent ↦ hturn s event next (List.mem_cons_of_mem _ hevent)) ?_
        s hs
      exact hturn _ _ _ List.mem_cons_self hstate hfirst

/-- What every turn keeps holds in every state of a loop. -/
theorem Loop.invariant {P : RunState N → Prop}
    (hturn : ∀ s event next, P s → Turn codec ops s event next → P next) {state final : RunState N}
    {steps : List (Scheduled N × RunState N)} (h : Loop codec ops state steps final)
    (hstate : P state) : ∀ s ∈ state :: steps.map (·.2), P s :=
  h.invariant_taken (fun s event next _ ↦ hturn s event next) hstate

/-- The states and events of a loop at one position are those of a turn. -/
theorem Loop.turn_at {state final s next : RunState N} {event : Scheduled N} {j : ℕ}
    {steps : List (Scheduled N × RunState N)} (h : Loop codec ops state steps final)
    (hstate : (state :: steps.map (·.2))[j]? = some s) (hstep : steps[j]? = some (event, next)) :
    Turn codec ops s event next := by
  induction h generalizing j with
  | stop => simp at hstep
  | turn hturn _ ih =>
    cases j with
    | zero =>
      simp only [List.getElem?_cons_zero, Option.some.injEq, Prod.mk.injEq] at hstate hstep
      obtain ⟨rfl, rfl⟩ := hstep
      exact hstate ▸ hturn
    | succ j => exact ih (by simpa using hstate) (by simpa using hstep)

/-! ### Executions -/

/-- A run of a plan whose loop ends: the scheduler after fault lowering, the state when the loop
starts, the turns of the loop, and the state when it ends. -/
structure Execution (N : Node) (data : PlanData) (workload : Option Strategy)
    (codec : Option (ClientCodec N)) (seed : Seed) where
  prepared : SchedCore N
  started : RunState N
  steps : List (Scheduled N × RunState N)
  final : RunState N
  prepare_eq : prepareCore N data seed = .ok prepared
  start_eq : startRun codec (resolveOps data workload seed) prepared = .ok started
  loop : Loop codec (resolveOps data workload seed) started steps final

namespace Execution

variable {data : PlanData} {workload : Option Strategy} {seed : Seed}

/-- The typed result of an execution. -/
def result (e : Execution N data workload codec seed) : TypedRun N := finishRun seed e.final

/-- The events that the loop takes from the queue, in the order in which it takes them. -/
def taken (e : Execution N data workload codec seed) : List (Scheduled N) := e.steps.map (·.1)

/-- The states between turns: when the loop starts, and after each turn. -/
def states (e : Execution N data workload codec seed) : List (RunState N) :=
  e.started :: e.steps.map (·.2)

/-- A plan has one execution at a seed. -/
instance : Subsingleton (Execution N data workload codec seed) := by
  refine ⟨fun e e' ↦ ?_⟩
  obtain ⟨prepared, started, steps, final, hprepare, hstart, hloop⟩ := e
  obtain ⟨prepared', started', steps', final', hprepare', hstart', hloop'⟩ := e'
  obtain rfl := Except.ok.inj (hprepare.symm.trans hprepare')
  obtain rfl := Except.ok.inj (hstart.symm.trans hstart')
  obtain ⟨rfl, rfl⟩ := hloop.unique hloop'
  rfl

/-- The state before a turn and the turn at one position. -/
theorem turn_at (e : Execution N data workload codec seed) {j : ℕ} {state next : RunState N}
    {event : Scheduled N} (hstate : e.states[j]? = some state)
    (hstep : e.steps[j]? = some (event, next)) :
    Turn codec (resolveOps data workload seed) state event next :=
  e.loop.turn_at hstate hstep

/-- An event is taken in a turn between two of the states. -/
theorem exists_turn (e : Execution N data workload codec seed) {j : ℕ} {event : Scheduled N}
    (h : e.taken[j]? = some event) :
    ∃ state next, e.states[j]? = some state ∧ e.states[j + 1]? = some next ∧
      Turn codec (resolveOps data workload seed) state event next := by
  obtain ⟨⟨event', next⟩, hstep, rfl⟩ : ∃ step, e.steps[j]? = some step ∧ step.1 = event := by
    simpa [taken] using h
  have hlt := (List.getElem?_eq_some_iff.mp hstep).1
  obtain ⟨state, hstate⟩ : ∃ state, e.states[j]? = some state :=
    ⟨_, List.getElem?_eq_getElem (by simp [states]; omega)⟩
  exact ⟨state, next, hstate, by simp [states, hstep], e.turn_at hstate hstep⟩

/-- Every state but the first is the result of a turn on the state before it. -/
theorem exists_turn_to (e : Execution N data workload codec seed) {j : ℕ} {next : RunState N}
    (h : e.states[j + 1]? = some next) :
    ∃ state event, e.states[j]? = some state ∧ e.taken[j]? = some event ∧
      Turn codec (resolveOps data workload seed) state event next := by
  obtain ⟨⟨event, next'⟩, hstep, rfl⟩ : ∃ step, e.steps[j]? = some step ∧ step.2 = next := by
    simpa [states] using h
  have htaken : e.taken[j]? = some event := by simp [taken, hstep]
  obtain ⟨state, next, hstate, hnext, hturn⟩ := e.exists_turn htaken
  obtain rfl := Option.some.inj (hnext.symm.trans h)
  exact ⟨state, event, hstate, htaken, hturn⟩

end Execution

/-- The turns of a plan at a seed, computed with fuel. -/
def planTurns (N : Node) (data : PlanData) (workload : Option Strategy)
    (codec : Option (ClientCodec N)) (seed : Seed) (fuel : ℕ) :
    Option (List (Scheduled N × RunState N)) :=
  match prepareCore N data seed with
  | .error _ => none
  | .ok prepared =>
    match startRun codec (resolveOps data workload seed) prepared with
    | .error _ => none
    | .ok started => (runTurns codec (resolveOps data workload seed) fuel started).map (·.1)

/-- The computed turns are those of every execution. -/
theorem Execution.steps_eq {data : PlanData} {workload : Option Strategy} {seed : Seed}
    (e : Execution N data workload codec seed) {fuel : ℕ} {steps : List (Scheduled N × RunState N)}
    (h : planTurns N data workload codec seed fuel = some steps) : e.steps = steps := by
  simp only [planTurns, e.prepare_eq, e.start_eq] at h
  obtain ⟨⟨steps', final⟩, hturns, rfl⟩ := Option.map_eq_some_iff.mp h
  exact (e.loop.unique (loop_of_runTurns hturns)).1

/-- The execution of a plan at a seed, computed with fuel. -/
def computeExecution (N : Node) (data : PlanData) (workload : Option Strategy)
    (codec : Option (ClientCodec N)) (seed : Seed) (fuel : ℕ) :
    Option (Execution N data workload codec seed) :=
  match hprepare : prepareCore N data seed with
  | .error _ => none
  | .ok prepared =>
    match hstart : startRun codec (resolveOps data workload seed) prepared with
    | .error _ => none
    | .ok started =>
      match hturns : runTurns codec (resolveOps data workload seed) fuel started with
      | none => none
      | some (steps, final) =>
        some ⟨prepared, started, steps, final, hprepare, hstart, loop_of_runTurns hturns⟩

/-- What is computed of an execution holds of every execution. -/
theorem Execution.of_compute {data : PlanData} {workload : Option Strategy} {seed : Seed}
    (e : Execution N data workload codec seed) {α : Type}
    {f : Execution N data workload codec seed → α}
    (fuel : ℕ) {a : α} (h : (computeExecution N data workload codec seed fuel).map f = some a) :
    f e = a := by
  obtain ⟨e', -, heq⟩ := Option.map_eq_some_iff.mp h
  rwa [Subsingleton.elim e e']

/-- The stages of a run. Assumes: nodes that are state machines. -/
theorem runDeterministic_eq {data : PlanData} {nodeDef : Option NodeDef}
    {workload : Option Strategy} {seed : Seed} (hnode : nodeDef ≠ some .spawnEach) (fuel : ℕ) :
    runDeterministic fuel data nodeDef workload codec seed = (do
      let core ← prepareCore N data seed
      let state ← startRun codec (resolveOps data workload seed) core
      let state ← mainLoop codec (resolveOps data workload seed) fuel state
      pure (.ok (finishRun seed state))) := by
  unfold runDeterministic
  split
  · exact absurd rfl hnode
  · rfl
  · rfl

/-- A plan runs to a result at a seed exactly when some execution has that result. Assumes: nodes
that are state machines. -/
theorem runDeterministic_eq_ok_iff {data : PlanData} {nodeDef : Option NodeDef}
    {workload : Option Strategy} {seed : Seed} (hnode : nodeDef ≠ some .spawnEach)
    (run : TypedRun N) :
    (∃ fuel, runDeterministic fuel data nodeDef workload codec seed = .ok (.ok run)) ↔
      ∃ e : Execution N data workload codec seed, e.result = run := by
  constructor
  · rintro ⟨fuel, h⟩
    rw [runDeterministic_eq hnode, except_bind_eq_ok] at h
    obtain ⟨core, hprepare, h⟩ := h
    rw [except_bind_eq_ok] at h
    obtain ⟨started, hstart, h⟩ := h
    rw [except_bind_eq_ok] at h
    obtain ⟨final, hloop, h⟩ := h
    rw [except_pure_eq_ok, Except.ok.injEq] at h
    obtain ⟨steps, hloop⟩ := mainLoop_eq_ok_iff.mp ⟨fuel, hloop⟩
    exact ⟨⟨core, started, steps, final, hprepare, hstart, hloop⟩, h⟩
  · rintro ⟨e, rfl⟩
    obtain ⟨fuel, hfuel⟩ := mainLoop_eq_ok_iff.mpr ⟨e.steps, e.loop⟩
    refine ⟨fuel, ?_⟩
    rw [runDeterministic_eq hnode, except_bind_eq_ok]
    refine ⟨e.prepared, e.prepare_eq, except_bind_eq_ok.mpr ⟨e.started, e.start_eq, ?_⟩⟩
    exact except_bind_eq_ok.mpr ⟨e.final, hfuel, rfl⟩

/-- Every run with a result is an execution. -/
theorem exists_execution {data : PlanData} {nodeDef : Option NodeDef} {workload : Option Strategy}
    {seed : Seed} {fuel : ℕ} {run : TypedRun N}
    (h : runDeterministic fuel data nodeDef workload codec seed = .ok (.ok run)) :
    ∃ e : Execution N data workload codec seed, e.result = run := by
  have hnode : nodeDef ≠ some .spawnEach := by
    rintro rfl
    simp [runDeterministic] at h
  exact (runDeterministic_eq_ok_iff hnode run).mp ⟨fuel, h⟩

end Propsim.Simulator
