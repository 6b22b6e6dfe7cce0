import Propsim.Simulator.CoreSteps

/-!
# What the network does to a message

The draws that scheduling a message makes, and its possible outcomes (`Delivery`). Every fact about
`schedule_delivery` is proved by cases on `delivery`, without unfolding it again.
-/

set_option autoImplicit false
set_option relaxedAutoImplicit false

namespace Propsim.Simulator

open Foundation Interchange Propsim.Core

variable {N : Node}

namespace SchedCore

variable (core : SchedCore N)

/-- The loss roll of the next message. -/
def lossRoll : Bool × SimRng := core.rng.chance core.model.loss.value

/-- The delay, in milliseconds, of the next message that is not lost. -/
def delayDraw : UInt64 × SimRng :=
  core.lossRoll.2.rangeU64 core.model.delayMs.start
    (max core.model.delayMs.stop core.model.delayMs.start)

/-- The duplication roll of the next message that is not lost. -/
def duplicateRoll : Bool × SimRng := core.delayDraw.2.chance core.model.duplicate.value

/-- The delivery time of a message sampled at `sampled`. -/
def arrival (sender recipient : NodeId) (sampled : Duration) : Duration :=
  if core.model.ordered then max sampled (core.lastLink (sender.id, recipient.id)) else sampled

/-- The core after the draws and the floor of a message that arrives at `fireAt`. -/
def drawn (sender recipient : NodeId) (fireAt : Duration) : SchedCore N :=
  { core with
    rng := core.duplicateRoll.2
    lastLink :=
      if core.model.ordered then
        Function.update core.lastLink (sender.id, recipient.id) fireAt
      else core.lastLink }

/-- The core after a message is sent: one or two copies arrive at `fireAt`. -/
def sent (sender recipient : NodeId) (fireAt : Duration) (msg : N.Msg) : SchedCore N :=
  if core.duplicateRoll.1 then
    ((core.drawn sender recipient fireAt).enqueue fireAt (.deliver sender recipient msg)).enqueue
      fireAt (.deliver sender recipient msg)
  else (core.drawn sender recipient fireAt).enqueue fireAt (.deliver sender recipient msg)

end SchedCore

/-! ### The parts of a delivery -/

theorem roll_eq (core : SchedCore N) (p : Prob) :
    core.roll p = ((core.rng.chance p.value).1, { core with rng := (core.rng.chance p.value).2 }) :=
  rfl

theorem sampleDelay_eq (core : SchedCore N) :
    core.sampleDelay = (.fromMillis (core.rng.rangeU64 core.model.delayMs.start
        (max core.model.delayMs.stop core.model.delayMs.start)).1,
      { core with rng := (core.rng.rangeU64 core.model.delayMs.start
        (max core.model.delayMs.stop core.model.delayMs.start)).2 }) := rfl

theorem floorDelivery_eq (core : SchedCore N) (sender recipient : NodeId) (sampled : Duration) :
    core.floorDelivery sender recipient sampled =
      (core.arrival sender recipient sampled,
        { core with
          lastLink :=
            if core.model.ordered then
              Function.update core.lastLink (sender.id, recipient.id)
                (core.arrival sender recipient sampled)
            else core.lastLink }) := by
  unfold SchedCore.floorDelivery SchedCore.arrival
  by_cases hordered : core.model.ordered = true
  · simp only [hordered, if_true]
  · simp only [hordered, if_false, Bool.false_eq_true]

/-! ### The outcomes -/

/-- What scheduling a message does: nothing between nodes that are not connected, one draw when the
network drops it, and else three draws and one or two copies in the queue. -/
inductive Delivery (core : SchedCore N) (sender recipient : NodeId) (msg : N.Msg) :
    Except Halt (SchedCore N) → Prop
  | cut (hconnected : core.connected sender recipient = false) :
      Delivery core sender recipient msg (.ok core)
  | lost (hconnected : core.connected sender recipient = true) (hlost : core.lossRoll.1 = true) :
      Delivery core sender recipient msg (.ok { core with rng := core.lossRoll.2 })
  | overflow {halt : Halt} (hconnected : core.connected sender recipient = true)
      (hlost : core.lossRoll.1 = false)
      (hsum : addDuration core.now (.fromMillis core.delayDraw.1) = .error halt) :
      Delivery core sender recipient msg (.error halt)
  | sent {sampled : Duration} (hconnected : core.connected sender recipient = true)
      (hlost : core.lossRoll.1 = false)
      (hsum : addDuration core.now (.fromMillis core.delayDraw.1) = .ok sampled) :
      Delivery core sender recipient msg
        (.ok (core.sent sender recipient (core.arrival sender recipient sampled) msg))

theorem delivery (core : SchedCore N) (sender recipient : NodeId) (msg : N.Msg) :
    Delivery core sender recipient msg (core.scheduleDelivery sender recipient msg) := by
  generalize hresult : core.scheduleDelivery sender recipient msg = result
  unfold SchedCore.scheduleDelivery at hresult
  split at hresult
  · rename_i hcut
    exact hresult ▸ .cut (by simpa using hcut)
  rename_i hcut
  have hconnected : core.connected sender recipient = true := by simpa using hcut
  split at hresult
  rename_i lost afterLoss hroll
  rw [roll_eq] at hroll
  obtain ⟨hlost, rfl⟩ := Prod.mk.inj hroll
  split at hresult
  · rename_i htrue
    exact hresult ▸ .lost hconnected (hlost.trans htrue)
  rename_i hfalse
  have hnotLost : core.lossRoll.1 = false := hlost.trans (by simpa using hfalse)
  split at hresult
  rename_i base afterDelay hsample
  rw [sampleDelay_eq] at hsample
  obtain ⟨hbase, hafterDelay⟩ := Prod.mk.inj hsample
  have hdelay : base = .fromMillis core.delayDraw.1 := hbase.symm
  have hnow : afterDelay.now = core.now := by rw [← hafterDelay]
  split at hresult
  · rename_i halt hsum
    rw [hdelay, hnow] at hsum
    exact hresult ▸ .overflow hconnected hnotLost hsum
  rename_i sampled hsum
  rw [hdelay, hnow] at hsum
  split at hresult
  rename_i fireAt floored hfloor
  rw [floorDelivery_eq, ← hafterDelay] at hfloor
  obtain ⟨hfireAt, hfloored⟩ := Prod.mk.inj hfloor
  have hfireAt' : fireAt = core.arrival sender recipient sampled := hfireAt.symm
  split at hresult
  rename_i dup afterDup hrollDup
  rw [roll_eq, ← hfloored, hfireAt] at hrollDup
  obtain ⟨hdup, hafterDup⟩ := Prod.mk.inj hrollDup
  have hdup' : dup = core.duplicateRoll.1 := hdup.symm
  have hdrawn : afterDup = core.drawn sender recipient fireAt := hafterDup.symm
  rw [hdup', hdrawn, hfireAt'] at hresult
  exact hresult ▸ .sent hconnected hnotLost hsum

section Outcomes

variable {core : SchedCore N} {sender recipient : NodeId} {msg : N.Msg}

theorem scheduleDelivery_cut (hconnected : core.connected sender recipient = false) :
    core.scheduleDelivery sender recipient msg = .ok core := by
  have hspec := delivery core sender recipient msg
  generalize core.scheduleDelivery sender recipient msg = result at hspec ⊢
  cases hspec with
  | cut => rfl
  | lost hother => simp [hconnected] at hother
  | overflow hother => simp [hconnected] at hother
  | sent hother => simp [hconnected] at hother

theorem scheduleDelivery_lost (hconnected : core.connected sender recipient = true)
    (hlost : core.lossRoll.1 = true) :
    core.scheduleDelivery sender recipient msg = .ok { core with rng := core.lossRoll.2 } := by
  have hspec := delivery core sender recipient msg
  generalize core.scheduleDelivery sender recipient msg = result at hspec ⊢
  cases hspec with
  | cut hother => simp [hconnected] at hother
  | lost => rfl
  | overflow _ hother => simp [hlost] at hother
  | sent _ hother => simp [hlost] at hother

theorem scheduleDelivery_sent {sampled : Duration}
    (hconnected : core.connected sender recipient = true) (hlost : core.lossRoll.1 = false)
    (hsum : addDuration core.now (.fromMillis core.delayDraw.1) = .ok sampled) :
    core.scheduleDelivery sender recipient msg =
      .ok (core.sent sender recipient (core.arrival sender recipient sampled) msg) := by
  have hspec := delivery core sender recipient msg
  generalize core.scheduleDelivery sender recipient msg = result at hspec ⊢
  cases hspec with
  | cut hother => simp [hconnected] at hother
  | lost _ hother => simp [hlost] at hother
  | overflow _ _ hother =>
    rw [hother] at hsum
    cases hsum
  | sent _ _ hother =>
    rw [hother] at hsum
    rw [Except.ok.inj hsum]

end Outcomes

end Propsim.Simulator
