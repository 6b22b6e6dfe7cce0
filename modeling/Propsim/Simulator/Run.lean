import Propsim.Foundation.Fallible
import Propsim.Simulator.Lowering

/-!
# The deterministic run

`ctx.rs` and `run_deterministic` of `propsim-sim/lib.rs`: how a callback's effects act on the
scheduler core, the dispatch of a popped event to a node, the gated issue of client operations, the
main loop, and the preparation of a run from a plan. The node slots are options because a node is
taken out of its slot while its callback runs. The main loop takes fuel, one unit for each event
that it dispatches.
-/

set_option autoImplicit false
set_option relaxedAutoImplicit false

namespace Propsim.Simulator

open Foundation Interchange Propsim.Core

variable {N : Node}

/-! ### Callbacks -/

/-- The value that a completion records, encoded under the `:f` of its still-open operation. -/
def completionValue (codec : Option (ClientCodec N)) (core : SchedCore N) (token : OpToken)
    (response : N.Response) : Value :=
  match codec, core.pendingF token with
  | some codec, some f => codec.encodeResponse f response
  | _, _ => .nil

/-- Resolves a pending client operation. -/
def completeOp (codec : Option (ClientCodec N)) (core : SchedCore N) (token : OpToken)
    (completion : Completion N.Response) : SchedCore N :=
  match completion with
  | .ok response => core.closeOp token .ok (completionValue codec core token response)
  | .fail => core.closeOp token .fail .nil
  | .info => core.closeOp token .info .nil

/-- The context of a callback of node `me`: its effects act on the scheduler core. -/
def harnessCtx (codec : Option (ClientCodec N)) (me : NodeId) :
    Ctx N.Msg N.Timer N.Response (SchedCore N) Halt where
  send recipient msg core := core.scheduleDelivery me recipient msg
  broadcast msg core :=
    (core.peers me).foldlM (fun core peer ↦ core.scheduleDelivery me peer msg) core
  setTimer timer after core := core.armTimer me timer after
  cancelTimer timer core := core.cancelTimer me timer
  now core := core.now
  nextU64 core := core.nextU64
  me := me
  completeOp token completion core := completeOp codec core token completion

/-! ### Dispatch -/

/-- Takes a node out of its slot, runs a callback, and puts the node back. -/
def runCallback (codec : Option (ClientCodec N)) (core : SchedCore N)
    (nodes : List (Option N.State)) (id : NodeId)
    (callback : N.State → Effects N.Msg N.Timer N.Response N.State) :
    Except Halt (SchedCore N × List (Option N.State)) :=
  match nodes[id.id.toNat]? with
  | none => .error .outOfBounds
  | some none => .ok (core, nodes)
  | some (some node) =>
    match (callback node).run (harnessCtx codec id) core with
    | .error halt => .error halt
    | .ok (node, core) => .ok (core, nodes.set id.id.toNat (some node))

/-- Starts a node. -/
def dispatchStart (codec : Option (ClientCodec N)) (core : SchedCore N)
    (nodes : List (Option N.State)) (id : NodeId) :
    Except Halt (SchedCore N × List (Option N.State)) :=
  runCallback codec core nodes id N.onStart

/-- Hands a message to a node. -/
def dispatchMsg (codec : Option (ClientCodec N)) (core : SchedCore N)
    (nodes : List (Option N.State)) (recipient sender : NodeId) (msg : N.Msg) :
    Except Halt (SchedCore N × List (Option N.State)) :=
  runCallback codec core nodes recipient fun node ↦ N.onMsg node sender msg

/-- Fires a timer on a node. -/
def dispatchTimer (codec : Option (ClientCodec N)) (core : SchedCore N)
    (nodes : List (Option N.State)) (id : NodeId) (timer : N.Timer) :
    Except Halt (SchedCore N × List (Option N.State)) :=
  runCallback codec core nodes id fun node ↦ N.onTimer node timer

/-- The `:f` of an operation that does not decode. -/
def opFunction (op : FrozenOp) : Function :=
  match op.op with
  | .keyword k => ⟨k⟩
  | .list (.keyword k :: _) => ⟨k⟩
  | _ => ⟨"op"⟩

/-- The index of the node that an operation is routed to. -/
def target (op : FrozenOp) (process : NodeId) (nodeCount : ℕ) : ℕ :=
  match op.route with
  | some node => node.id.toNat % nodeCount
  | none => process.id.toNat % nodeCount

/-- Decodes an operation, records its Invoke, and hands it to its target node. -/
def dispatchClientOp (codec : Option (ClientCodec N)) (core : SchedCore N)
    (nodes : List (Option N.State)) (process : NodeId) (op : FrozenOp) :
    Except Halt (SchedCore N × List (Option N.State)) :=
  let target := target op process nodes.length
  let pid : ProcessId := ⟨process.id⟩
  match codec.bind fun c ↦ c.decode op.op with
  | none =>
    let (tok, core) := core.openOp pid (opFunction op) op.op
    .ok (core.closeOp tok .fail .nil, nodes)
  | some (f, typedOp) =>
    let (tok, core) := core.openOp pid f op.op
    match nodes[target]? with
    | none => .error .outOfBounds
    | some none => .ok (core.closeOp tok .info .nil, nodes)
    | some (some node) =>
      match (N.onClientOp node typedOp tok).run (harnessCtx codec ⟨.ofNat target⟩) core with
      | .error halt => .error halt
      | .ok ((node, outcome), core) =>
        let nodes := nodes.set target (some node)
        match outcome with
        | .done response =>
          let value :=
            match codec with
            | some c => c.encodeResponse f response
            | none => .nil
          .ok (core.closeOp tok .ok value, nodes)
        | .pending => .ok (core, nodes)

/-! ### The main loop -/

/-- The state of a run: the scheduler core, the node slots, the operations that each process has
still to issue, how many it has scheduled, and the frames so far. -/
structure RunState (N : Node) where
  core : SchedCore N
  nodes : List (Option N.State)
  perProcess : ℕ → List ℕ
  scheduled : ℕ → ℕ
  frames : List (Duration × List N.State)

/-- The operations of a stream that a process issues, as indices in stream order. -/
def groupOps (ops : List FrozenOp) (nodeCount : ℕ) (p : ℕ) : List ℕ :=
  (ops.zipIdx.filter fun op ↦ op.1.process.id.toNat % nodeCount = p).map (·.2)

/-- Schedules the next operation of a process that has none in flight. -/
def pumpProcess (state : RunState N) (p : ℕ) : Except Halt (RunState N) :=
  if state.core.closedFor ⟨.ofNat p⟩ < state.scheduled p then .ok state
  else
    match state.perProcess p with
    | [] => .ok state
    | index :: rest =>
      match addDuration state.core.now (.fromMillis 1) with
      | .error halt => .error halt
      | .ok fireAt =>
        .ok { state with
          perProcess := Function.update state.perProcess p rest
          scheduled := Function.update state.scheduled p (state.scheduled p + 1)
          core := state.core.scheduleClientOp fireAt ⟨.ofNat p⟩ index }

/-- Schedules the next operation of every process that has none in flight. -/
def pumpClientOps (state : RunState N) : Except Halt (RunState N) :=
  (List.range state.core.nodeCount.toNat).foldlM pumpProcess state

/-- Appends a frame. -/
def snapshot (state : RunState N) : RunState N :=
  { state with frames := state.frames ++ [(state.core.now, state.nodes.filterMap id)] }

/-- Dispatches a popped event. -/
def dispatch (codec : Option (ClientCodec N)) (ops : List FrozenOp) (core : SchedCore N)
    (nodes : List (Option N.State)) (popped : PoppedEvent N) :
    Except Halt (SchedCore N × List (Option N.State)) :=
  match popped with
  | .deliver sender recipient msg => dispatchMsg codec core nodes recipient sender msg
  | .timer node timer => dispatchTimer codec core nodes node timer
  | .clientOp process index =>
    match ops[index]? with
    | none => .error .outOfBounds
    | some op => dispatchClientOp codec core nodes process op
  | .fault (some n) => dispatchStart codec core nodes n
  | .fault none => .ok (core, nodes)

/-- One turn of the main loop: dispatch, pump, snapshot. -/
def handle (codec : Option (ClientCodec N)) (ops : List FrozenOp) (state : RunState N)
    (popped : PoppedEvent N) : Except Halt (RunState N) := do
  let (core, nodes) ← dispatch codec ops state.core state.nodes popped
  let state ← pumpClientOps { state with core := core, nodes := nodes }
  pure (snapshot state)

/-- The main loop. -/
def mainLoop (codec : Option (ClientCodec N)) (ops : List FrozenOp) :
    ℕ → RunState N → Except Halt (RunState N)
  | 0, _ => .error .outOfFuel
  | fuel + 1, state =>
    match state.core.pop with
    | (none, core) => .ok { state with core := core }
    | (some popped, core) =>
      match handle codec ops { state with core := core } popped with
      | .error halt => .error halt
      | .ok state => mainLoop codec ops fuel state

/-! ### From a plan to a run -/

/-- The eight bytes of a number, least significant first. -/
def toLeBytes (n : UInt64) : List UInt8 :=
  (List.range 8).map fun i ↦ .ofNat (n.toNat / 256 ^ i)

/-- Samples a strategy a number of times, leaving out the rejected samples. -/
def sampleOps (strategy : Strategy) : ℕ → strategy.Runner → List FrozenOp
  | 0, _ => []
  | count + 1, runner =>
    let (op, runner) := strategy.newTree runner
    op.toList ++ sampleOps strategy count runner

/-- The client operation stream of a run. -/
def resolveOps (data : PlanData) (workload : Option Strategy) (seed : Seed) : List FrozenOp :=
  match data.replay with
  | some scenario => scenario.ops
  | none =>
    match workload with
    | none => []
    | some strategy =>
      let bytes := (List.replicate 4 (toLeBytes seed.val)).flatten
      sampleOps strategy (max 1 (min data.seeds.toNat 64)) (strategy.fromSeed bytes)

/-- The latest time of a scripted timeline, from five seconds on. -/
def latestFault (faults : Option Faults) : Duration :=
  match faults.bind Faults.script with
  | some script => script.foldl (fun latest event ↦ max latest event.fireAt) (.fromSecs 5)
  | none => .fromSecs 5

/-- The faults that the horizon is computed from. -/
def horizonFaults (data : PlanData) : Option Faults :=
  data.faults.or (data.replay.map (·.faults))

/-- The virtual-time horizon of a run. -/
def runHorizon (data : PlanData) : Except Halt Duration := do
  let horizon ← addDuration (latestFault (horizonFaults data)) (.fromSecs 10)
  pure (max horizon (.fromSecs 10))

/-- The node count of a plan. -/
def nodeCount (data : PlanData) : UInt64 := max data.nodes 1

theorem max_one_pos (n : UInt64) : 0 < (max n 1).toNat := by
  have hone : 1 ≤ max n 1 := by
    change 1 ≤ if n ≤ 1 then 1 else n
    split_ifs with hle
    · exact UInt64.le_refl _
    · exact UInt64.le_of_lt (UInt64.not_le.mp hle)
  exact UInt64.le_iff_toNat_le.mp hone

/-- A plan has a node. -/
theorem nodeCount_pos (data : PlanData) : 0 < (nodeCount data).toNat := max_one_pos data.nodes

/-- The scheduler of a run after its faults are lowered. -/
def prepareCore (N : Node) (data : PlanData) (seed : Seed) : Except Halt (SchedCore N) := do
  let model := data.network.getD .orderedReliable
  let horizon ← runHorizon data
  let core : SchedCore N :=
    { SchedCore.new seed.val model (nodeCount data) with horizon := horizon }
  let (model, core) ←
    lower data.faults model core (.new (seed.val ^^^ 0xF0F0F0F0)) (nodeCount data)
  pure { core with model := model }

/-- Starts every node, takes the first frame, and issues the first operations. -/
def startRun (codec : Option (ClientCodec N)) (ops : List FrozenOp) (core : SchedCore N) :
    Except Halt (RunState N) := do
  let count := core.nodeCount.toNat
  let nodes : List (Option N.State) := List.replicate count (some N.default)
  let (core, nodes) ← (List.range count).foldlM
    (fun state id ↦ dispatchStart codec state.1 state.2 ⟨.ofNat id⟩) (core, nodes)
  pumpClientOps (snapshot
    { core := core, nodes := nodes, perProcess := groupOps ops count, scheduled := fun _ ↦ 0,
      frames := [] })

/-- One seed's typed result. -/
structure TypedRun (N : Node) where
  history : History
  worldTrace : WorldTrace N.State
  events : List RunEvent
  seed : Seed

/-- The result of a run whose loop has ended: open operations are closed as indeterminate. -/
def finishRun (seed : Seed) (state : RunState N) : TypedRun N :=
  let core := state.core.forceClosePending
  ⟨core.history, ⟨state.frames, core.history⟩, core.events, seed⟩

/-- Runs one deterministic execution. -/
def runDeterministic (fuel : ℕ) (data : PlanData) (nodeDef : Option NodeDef)
    (workload : Option Strategy) (codec : Option (ClientCodec N)) (seed : Seed) :
    Except Halt (Except RunFailure (TypedRun N)) :=
  match nodeDef with
  | some .spawnEach => .ok (.error .noExecutor)
  | some .stateMachine | none => do
    let core ← prepareCore N data seed
    let ops := resolveOps data workload seed
    let state ← startRun codec ops core
    let state ← mainLoop codec ops fuel state
    pure (.ok (finishRun seed state))

/-! ### A counting node -/

/-- A node that counts the client operations that it executes. -/
def counter : Node where
  State := ℕ
  Msg := Unit
  Timer := Unit
  Op := Unit
  Response := Unit
  default := (0 : ℕ)
  debug _ := "()"
  onStart count := .done count
  onMsg count _ _ := .done count
  onTimer count _ := .done count
  onClientOp count _ _ := .done (Nat.succ count, .done ())

/-- The codec of the counting node accepts every operation. -/
def counterCodec : ClientCodec counter where
  decode _ := some (⟨"increment"⟩, ())
  encodeResponse _ _ := .nil

/-- A plan of counting nodes with a scripted timeline and a pinned operation stream. -/
def counterPlan (nodes : UInt64) (script : List ScriptedEvent) (ops : List FrozenOp) : PlanData :=
  ⟨nodes, none, some ⟨.scripted script, .safety⟩, 1, some (.new ops .swarm)⟩

/-- Two counting nodes, two clients, and a crash and a restart of the first node. -/
def counterScript : PlanData :=
  counterPlan 2 [⟨.fromMillis 2, .crash ⟨0⟩⟩, ⟨.fromMillis 4, .restart ⟨0⟩⟩]
    [.new ⟨1⟩ .nil, .new ⟨0⟩ .nil, .new ⟨1⟩ .nil]

theorem exists_run_of_isSome {x : Except Halt (Except RunFailure (TypedRun N))}
    (h : (x.toOption.bind Except.toOption).isSome = true) : ∃ run, x = .ok (.ok run) := by
  cases x with
  | error halt => simp [Except.toOption] at h
  | ok outcome =>
    cases outcome with
    | error failure => simp [Except.toOption] at h
    | ok run => exact ⟨run, rfl⟩

example :
    ((runDeterministic 8 counterScript none none (some counterCodec) ⟨0⟩).toOption.bind
      Except.toOption).map (fun run ↦
        (run.history.entries.map fun e ↦ (e.kind, e.process.id),
          run.worldTrace.frames.map fun frame ↦ (frame.2 : List ℕ))) =
      some ([(.invoke, 0), (.ok, 0), (.invoke, 1), (.ok, 1), (.invoke, 1), (.ok, 1)],
        [[0, 0], [1, 0], [1, 1], [1, 1], [1, 2], [1, 2]]) := by
  decide +kernel

end Propsim.Simulator
