import Propsim.Foundation.PriorityQueue
import Propsim.Simulator.Rng
import Mathlib.Data.Prod.Lex
import Mathlib.Logic.Function.Basic

/-!
# The scheduler core

`scheduler.rs`: the event queue ordered by `(at, seq)`, the pending client operations, the timer
generations, the partition and crash state, the network sampling, and `pop`. A virtual-time sum
that `Duration` cannot represent panics in the source; here it is the error `Halt.overflow`.
-/

set_option autoImplicit false
set_option relaxedAutoImplicit false

namespace Propsim.Simulator

open Foundation Interchange Propsim.Core

/-- Why a run has no result: a panic of the source, or too little fuel for its loop. -/
inductive Halt
  | overflow
  | outOfBounds
  | outOfFuel
  deriving DecidableEq, Repr

/-- The sum of two durations, which panics on overflow. -/
def addDuration (a b : Duration) : Except Halt Duration :=
  match a.checkedAdd b with
  | some sum => .ok sum
  | none => .error .overflow

/-- A virtual duration in nanoseconds, saturating at the largest `i64`. -/
def nowNanos (now : Duration) : Int64 := Int64.ofNat (min now.nanos (2 ^ 63 - 1))

/-- A run-level event that a deadline can be anchored to. -/
inductive RunEvent
  | networkHealed (t : Duration)
  | nodeRejoined (t : Duration) (node : NodeId)
  deriving DecidableEq

/-- A resolved fault action on the timeline. -/
inductive FaultAction
  | partition (a b : List NodeId)
  | healAll
  | crash (node : NodeId)
  | restart (node : NodeId)
  deriving DecidableEq

/-- What a scheduled event does when it fires. -/
inductive EventKind (N : Node)
  | deliver (sender recipient : NodeId) (msg : N.Msg)
  | timer (node : NodeId) (timer : N.Timer) (gen : ℕ)
  | clientOp (process : NodeId) (index : ℕ)
  | fault (action : FaultAction)

/-- A scheduled event. -/
structure Scheduled (N : Node) where
  fireAt : Duration
  seq : ℕ
  kind : EventKind N

/-- Events are ordered by time, and by sequence number within one instant. -/
def Scheduled.key {N : Node} (event : Scheduled N) : Duration ×ₗ ℕ :=
  toLex (event.fireAt, event.seq)

/-- An open client operation: its process, and the `:f` to reuse for its completion entry. -/
structure PendingOp where
  process : ProcessId
  f : Function
  deriving DecidableEq

/-- The scheduler state that is not the node slice. -/
structure SchedCore (N : Node) where
  now : Duration
  rng : SimRng
  model : NetworkModel
  horizon : Duration
  queue : PriorityQueue (Scheduled.key (N := N))
  seq : ℕ
  /-- The current generation of each timer of each node. -/
  timerGen : UInt64 × String → ℕ
  partitions : List (List NodeId)
  crashed : List NodeId
  /-- The last scheduled delivery time of each link. -/
  lastLink : UInt64 × UInt64 → Duration
  history : History
  events : List RunEvent
  /-- The open client operations with their tokens, in token order. -/
  pendingOps : List (ℕ × PendingOp)
  nextToken : ℕ
  nodeCount : UInt64

/-- A resolved event handed to the driver. -/
inductive PoppedEvent (N : Node)
  | deliver (sender recipient : NodeId) (msg : N.Msg)
  | timer (node : NodeId) (timer : N.Timer)
  | clientOp (process : NodeId) (index : ℕ)
  | fault (rejoined : Option NodeId)

namespace SchedCore

variable {N : Node}

/-- A fresh scheduler. -/
def new (seed : UInt64) (model : NetworkModel) (nodeCount : UInt64) : SchedCore N where
  now := .zero
  rng := .new seed
  model := model
  horizon := .fromSecs 10
  queue := .empty
  seq := 0
  timerGen := fun _ ↦ 0
  partitions := []
  crashed := []
  lastLink := fun _ ↦ .zero
  history := .default
  events := []
  pendingOps := []
  nextToken := 0
  nodeCount := nodeCount

/-! ### History -/

/-- Appends an entry at the current virtual time. -/
def record (core : SchedCore N) (kind : OpKind) (process : ProcessId) (f : Function)
    (value : Value) : SchedCore N :=
  { core with history := ⟨core.history.entries ++
      [⟨.ofNat core.history.entries.length, .virtualNanos (nowNanos core.now), kind, process, f,
        value⟩]⟩ }

/-- Records an Invoke and registers a pending operation. Tokens are handed out in increasing order,
so the new one is the last key. -/
def openOp (core : SchedCore N) (process : ProcessId) (f : Function) (value : Value) :
    OpToken × SchedCore N :=
  let core := core.record .invoke process f value
  (⟨core.nextToken⟩, { core with
    nextToken := core.nextToken + 1
    pendingOps := core.pendingOps ++ [(core.nextToken, ⟨process, f⟩)] })

/-- The pending operation of a token. -/
def pending (core : SchedCore N) (token : OpToken) : Option PendingOp :=
  (core.pendingOps.find? fun entry ↦ entry.1 = token.id).map (·.2)

/-- Closes a pending operation with a terminal entry. An unknown token changes nothing. -/
def closeOp (core : SchedCore N) (token : OpToken) (kind : OpKind) (value : Value) :
    SchedCore N :=
  match core.pending token with
  | none => core
  | some p =>
    { core with pendingOps := core.pendingOps.filter fun entry ↦ entry.1 ≠ token.id }
      |>.record kind p.process p.f value

/-- The `:f` of a still-open operation. -/
def pendingF (core : SchedCore N) (token : OpToken) : Option Function :=
  (core.pending token).map (·.f)

/-- How many operations of a process have a terminal entry. -/
def closedFor (core : SchedCore N) (process : ProcessId) : ℕ :=
  core.history.entries.countP fun e ↦ e.process = process ∧ e.kind ≠ .invoke

/-- Closes operations one after the other as indeterminate. -/
def closeAll (core : SchedCore N) (tokens : List ℕ) : SchedCore N :=
  tokens.foldl (fun core token ↦ core.closeOp ⟨token⟩ .info .nil) core

/-- Closes every open operation as indeterminate. -/
def forceClosePending (core : SchedCore N) : SchedCore N :=
  core.closeAll (core.pendingOps.map (·.1))

/-! ### Queue -/

/-- Schedules an event under the next sequence number. -/
def enqueue (core : SchedCore N) (fireAt : Duration) (kind : EventKind N) : SchedCore N :=
  { core with
    seq := core.seq + 1
    queue := core.queue.push ⟨fireAt, core.seq, kind⟩ }

/-- Schedules a fault action. -/
def scheduleFault (core : SchedCore N) (fireAt : Duration) (action : FaultAction) :
    SchedCore N :=
  core.enqueue fireAt (.fault action)

/-- Schedules a client operation. -/
def scheduleClientOp (core : SchedCore N) (fireAt : Duration) (process : NodeId) (index : ℕ) :
    SchedCore N :=
  core.enqueue fireAt (.clientOp process index)

/-! ### Network -/

/-- Two nodes can currently exchange messages. -/
def connected (core : SchedCore N) (a b : NodeId) : Bool :=
  if a ∈ core.crashed ∨ b ∈ core.crashed then false
  else if core.partitions.isEmpty then true
  else core.partitions.any fun group ↦ a ∈ group ∧ b ∈ group

/-- Samples a delivery delay. -/
def sampleDelay (core : SchedCore N) : Duration × SchedCore N :=
  let lo := core.model.delayMs.start
  let hi := core.model.delayMs.stop
  let (millis, rng) := core.rng.rangeU64 lo (max hi lo)
  (.fromMillis millis, { core with rng := rng })

/-- Samples a probability. -/
def roll (core : SchedCore N) (p : Prob) : Bool × SchedCore N :=
  let (hit, rng) := core.rng.chance p.value
  (hit, { core with rng := rng })

/-- Draws a number for node code. -/
def nextU64 (core : SchedCore N) : UInt64 × SchedCore N :=
  let (z, rng) := core.rng.next
  (z, { core with rng := rng })

/-- The delivery time of a message sampled at `fireAt`: on an ordered network not before the last
one of its link. -/
def floorDelivery (core : SchedCore N) (sender recipient : NodeId) (fireAt : Duration) :
    Duration × SchedCore N :=
  if core.model.ordered then
    let link := (sender.id, recipient.id)
    let fireAt := max fireAt (core.lastLink link)
    (fireAt, { core with lastLink := Function.update core.lastLink link fireAt })
  else (fireAt, core)

/-- Schedules the delivery of a message, unless the network drops it. -/
def scheduleDelivery (core : SchedCore N) (sender recipient : NodeId) (msg : N.Msg) :
    Except Halt (SchedCore N) :=
  if !core.connected sender recipient then .ok core
  else
    let (lost, core) := core.roll core.model.loss
    if lost then .ok core
    else
      let (base, core) := core.sampleDelay
      match addDuration core.now base with
      | .error halt => .error halt
      | .ok fireAt =>
        let (fireAt, core) := core.floorDelivery sender recipient fireAt
        let (dup, core) := core.roll core.model.duplicate
        let core := core.enqueue fireAt (.deliver sender recipient msg)
        .ok (if dup then core.enqueue fireAt (.deliver sender recipient msg) else core)

/-- The other node ids. -/
def peers (core : SchedCore N) (me : NodeId) : List NodeId :=
  ((List.range core.nodeCount.toNat).map fun n ↦ ⟨.ofNat n⟩).filter (· ≠ me)

/-! ### Timers -/

/-- The key of a timer of a node. -/
def timerKey (node : NodeId) (timer : N.Timer) : UInt64 × String := (node.id, N.debug timer)

/-- Advances the generation of a timer, which makes its queued firings stale. -/
def cancelTimer (core : SchedCore N) (node : NodeId) (timer : N.Timer) : SchedCore N :=
  let key := timerKey node timer
  { core with timerGen := Function.update core.timerGen key (core.timerGen key + 1) }

/-- Arms a timer under a new generation. -/
def armTimer (core : SchedCore N) (node : NodeId) (timer : N.Timer) (after : Duration) :
    Except Halt (SchedCore N) :=
  let core := core.cancelTimer node timer
  match addDuration core.now after with
  | .error halt => .error halt
  | .ok fireAt =>
    .ok (core.enqueue fireAt (.timer node timer (core.timerGen (timerKey node timer))))

/-- A queued firing is of the current generation. -/
def timerIsCurrent (core : SchedCore N) (node : NodeId) (timer : N.Timer) (gen : ℕ) : Bool :=
  core.timerGen (timerKey node timer) == gen

/-! ### Faults -/

/-- Applies a fault action, and names the node that has to start again. -/
def applyFault (core : SchedCore N) (action : FaultAction) : Option NodeId × SchedCore N :=
  match action with
  | .partition a b => (none, { core with partitions := [a, b] })
  | .healAll =>
    (none, { core with
      partitions := []
      events := core.events ++ [.networkHealed core.now] })
  | .crash n =>
    let core := if n ∈ core.crashed then core else { core with crashed := core.crashed ++ [n] }
    let victims := (core.pendingOps.filter fun entry ↦ entry.2.process = ⟨n.id⟩).map (·.1)
    (none, core.closeAll victims)
  | .restart n =>
    (some n, { core with
      crashed := core.crashed.filter (· ≠ n)
      events := core.events ++ [.nodeRejoined core.now n] })

/-! ### Pop -/

/-- Resolves an event below the horizon at its own time. A stale timer, and an event for a crashed
node, is skipped. -/
def resolve (core : SchedCore N) (event : Scheduled N) : Option (PoppedEvent N) × SchedCore N :=
  let core := { core with now := event.fireAt }
  match event.kind with
  | .timer node timer gen =>
    if core.timerIsCurrent node timer gen ∧ node ∉ core.crashed then
      (some (.timer node timer), core)
    else (none, core)
  | .deliver sender recipient msg =>
    if recipient ∉ core.crashed then (some (.deliver sender recipient msg), core) else (none, core)
  | .clientOp process index => (some (.clientOp process index), core)
  | .fault action =>
    let (rejoined, core) := core.applyFault action
    (some (.fault rejoined), core)

/-- The loop of `pop` over at most `bound` queued events. -/
def popLoop : ℕ → SchedCore N → Option (PoppedEvent N) × SchedCore N
  | 0, core => (none, core)
  | bound + 1, core =>
    match core.queue.pop with
    | none => (none, core)
    | some (event, queue) =>
      let core := { core with queue := queue }
      if core.horizon ≤ event.fireAt then (none, { core with now := core.horizon })
      else
        match core.resolve event with
        | (some popped, core) => (some popped, core)
        | (none, core) => popLoop bound core

/-- One iteration of `pop` over a nonempty queue. -/
theorem popLoop_succ {core : SchedCore N} {event : Scheduled N}
    {queue : PriorityQueue Scheduled.key} (hpop : core.queue.pop = some (event, queue))
    (bound : ℕ) :
    core.popLoop (bound + 1) =
      if core.horizon ≤ event.fireAt then
        (none, { core with queue := queue, now := core.horizon })
      else
        match resolve { core with queue := queue } event with
        | (some popped, core) => (some popped, core)
        | (none, core) => core.popLoop bound := by
  simp only [popLoop, hpop]

/-- Pops the next event and advances the virtual clock. No turn of the loop adds an event, so it
ends within the length of the queue. -/
def pop (core : SchedCore N) : Option (PoppedEvent N) × SchedCore N :=
  core.popLoop core.queue.length

end SchedCore

end Propsim.Simulator
