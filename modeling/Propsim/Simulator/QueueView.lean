import Propsim.Simulator.QueueOrder
import Propsim.Simulator.Network

/-!
# What a run sees of its queue

Two runs can hold the same future in different queues: their sequence numbers differ, the same
client operation has another index in another stream, and one of them holds operations that do not
matter to the other, as those that are due at the horizon or later and never issued (`pastHorizon`).
`SchedCore.view` forgets these differences. Two cores that differ only there (`SameView`) stay so
when the next event is taken (`SameView.take`) and dispatched (`dispatch_sameView`), with the same
effect on the nodes.
-/

set_option autoImplicit false
set_option relaxedAutoImplicit false

namespace Propsim.Simulator

open Foundation Interchange Propsim.Core

/-- The client operations that a view leaves out, by the horizon, their time and their index. -/
abbrev Hides := Duration → Duration → ℕ → Bool

/-- An operation that is due at the horizon or later. -/
def pastHorizon : Hides := fun horizon fireAt _ ↦ decide (horizon ≤ fireAt)

variable {N : Node} {codec : Option (ClientCodec N)} {ops ops' : List FrozenOp} {hides : Hides}

/-! ### The view of a queue -/

/-- What an event does, where a client operation is known by its value and its target in place of
its index. -/
def EventKind.viewed (ops : List FrozenOp) (nodeCount : ℕ) :
    EventKind N → EventKind N × Option (Value × ℕ)
  | .clientOp process index =>
    (.clientOp process 0, ops[index]?.map fun op ↦ (op.op, target op process nodeCount))
  | .deliver sender recipient msg => (.deliver sender recipient msg, none)
  | .timer node tag gen => (.timer node tag gen, none)
  | .fault action => (.fault action, none)

/-- The event issues a client operation. -/
def EventKind.isClientOp : EventKind N → Bool
  | .clientOp _ _ => true
  | .deliver _ _ _ => false
  | .timer _ _ _ => false
  | .fault _ => false

/-- An event of this kind at this time is left out. -/
def EventKind.hidden (hides : Hides) (horizon fireAt : Duration) : EventKind N → Bool
  | .clientOp _ index => hides horizon fireAt index
  | .deliver _ _ _ => false
  | .timer _ _ _ => false
  | .fault _ => false

/-- The event is not left out. -/
def Scheduled.live (hides : Hides) (horizon : Duration) (event : Scheduled N) : Bool :=
  !event.kind.hidden hides horizon event.fireAt

/-- The future that a queue holds, in the order in which it comes out. -/
def viewOf (hides : Hides) (ops : List FrozenOp) (nodeCount : ℕ) (horizon : Duration)
    (queue : PriorityQueue (Scheduled.key (N := N))) :
    List (Duration × EventKind N × Option (Value × ℕ)) :=
  (queue.toList.filter (Scheduled.live hides horizon)).map fun event ↦
    (event.fireAt, event.kind.viewed ops nodeCount)

/-- The future that the queue of a core holds. -/
def SchedCore.view (core : SchedCore N) (hides : Hides) (ops : List FrozenOp) :
    List (Duration × EventKind N × Option (Value × ℕ)) :=
  viewOf hides ops core.nodeCount.toNat core.horizon core.queue

theorem EventKind.hidden_of_not_clientOp (horizon fireAt : Duration) {kind : EventKind N}
    (h : kind.isClientOp = false) : kind.hidden hides horizon fireAt = false := by
  cases kind with
  | clientOp => cases h
  | deliver => rfl
  | timer => rfl
  | fault => rfl

theorem EventKind.hidden_pastHorizon (horizon fireAt : Duration) (kind : EventKind N) :
    kind.hidden pastHorizon horizon fireAt =
      (kind.isClientOp && decide (horizon ≤ fireAt)) := by
  cases kind <;> rfl

theorem Scheduled.live_of_not_clientOp {event : Scheduled N} (h : event.kind.isClientOp = false)
    (horizon : Duration) : event.live hides horizon = true := by
  rw [Scheduled.live, EventKind.hidden_of_not_clientOp _ _ h]
  rfl

theorem Scheduled.live_of_lt {horizon : Duration} {event : Scheduled N}
    (h : event.fireAt < horizon) : event.live pastHorizon horizon = true := by
  simp [Scheduled.live, EventKind.hidden_pastHorizon, h]

theorem EventKind.IsEffect.isClientOp {kind : EventKind N} (h : kind.IsEffect) :
    kind.isClientOp = false := by
  cases kind with
  | clientOp process index => exact h.elim
  | deliver sender recipient msg => rfl
  | timer node timer gen => rfl
  | fault action => rfl

theorem EventKind.viewed_of_not_clientOp {nodeCount : ℕ} {kind : EventKind N}
    (h : kind.isClientOp = false) : kind.viewed ops nodeCount = (kind, none) := by
  cases kind with
  | clientOp process index => cases h
  | deliver sender recipient msg => rfl
  | timer node timer gen => rfl
  | fault action => rfl

theorem EventKind.isClientOp_viewed (nodeCount : ℕ) (kind : EventKind N) :
    (kind.viewed ops nodeCount).1.isClientOp = kind.isClientOp := by
  cases kind <;> rfl

/-- Kinds that look alike are equal, up to the index of a client operation. -/
theorem EventKind.viewed_eq {nodeCount : ℕ} {kind kind' : EventKind N}
    (h : kind'.viewed ops' nodeCount = kind.viewed ops nodeCount) :
    kind' = kind ∧ kind.isClientOp = false ∨
      ∃ process index index', kind = .clientOp process index ∧ kind' = .clientOp process index' ∧
        ops'[index']?.map (fun op ↦ (op.op, target op process nodeCount)) =
          ops[index]?.map fun op ↦ (op.op, target op process nodeCount) := by
  have hsame : kind'.isClientOp = kind.isClientOp := by
    rw [← isClientOp_viewed nodeCount kind', h, isClientOp_viewed]
  cases hclient : kind.isClientOp with
  | false =>
    rw [viewed_of_not_clientOp hclient, viewed_of_not_clientOp (hsame.trans hclient)] at h
    exact Or.inl ⟨(Prod.mk.inj h).1, rfl⟩
  | true =>
    rw [hclient] at hsame
    cases kind with
    | clientOp process index =>
      cases kind' with
      | clientOp process' index' =>
        obtain ⟨hkind, hop⟩ := Prod.mk.inj h
        obtain ⟨rfl, -⟩ := EventKind.clientOp.inj hkind
        exact Or.inr ⟨process', index, index', rfl, rfl, hop⟩
      | deliver => cases hsame
      | timer => cases hsame
      | fault => cases hsame
    | deliver => cases hclient
    | timer => cases hclient
    | fault => cases hclient

/-- Every sequence number in a queue has been handed out. -/
def Fresh (queue : PriorityQueue (Scheduled.key (N := N))) (seq : ℕ) : Prop :=
  ∀ event ∈ queue.toList, event.seq < seq

theorem Fresh.push {queue : PriorityQueue (Scheduled.key (N := N))} {seq : ℕ}
    (h : Fresh queue seq) (fireAt : Duration) (kind : EventKind N) :
    Fresh (queue.push ⟨fireAt, seq, kind⟩) (seq + 1) := by
  intro event hevent
  rcases PriorityQueue.mem_push.mp hevent with rfl | hevent
  · exact Nat.lt_succ_self _
  · exact Nat.lt_succ_of_lt (h event hevent)

theorem QueueInv.fresh {taken : List (Scheduled N)} {core : SchedCore N}
    (h : QueueInv taken core) : Fresh core.queue core.seq :=
  fun _ hevent ↦ h.seq_lt (List.mem_append_right _ hevent)

/-- Inserting into a view after everything that is not later. -/
def insertView (view : List (Duration × EventKind N × Option (Value × ℕ)))
    (seen : Duration × EventKind N × Option (Value × ℕ)) :
    List (Duration × EventKind N × Option (Value × ℕ)) :=
  view.filter (fun other ↦ other.1 ≤ seen.1) ++ seen :: view.filter fun other ↦ seen.1 < other.1

section Push

variable {queue : PriorityQueue (Scheduled.key (N := N))} {seq : ℕ} (hfresh : Fresh queue seq)
  (fireAt : Duration)

include hfresh

theorem key_lt_fresh_iff {b : Scheduled N} (hb : b ∈ queue.toList) :
    b.key < toLex (fireAt, seq) ↔ b.fireAt ≤ fireAt := by
  have hseq := hfresh b hb
  change toLex (b.fireAt, b.seq) < toLex (fireAt, seq) ↔ _
  rw [Prod.Lex.toLex_lt_toLex, le_iff_lt_or_eq]
  exact or_congr Iff.rfl (and_iff_left hseq)

theorem fresh_le_key_iff {b : Scheduled N} (hb : b ∈ queue.toList) :
    toLex (fireAt, seq) ≤ b.key ↔ fireAt < b.fireAt := by
  rw [← not_lt, key_lt_fresh_iff hfresh fireAt hb, not_le]

/-- A fresh event goes behind everything that is not later. -/
theorem toList_push_fresh (kind : EventKind N) :
    (queue.push ⟨fireAt, seq, kind⟩).toList =
      queue.toList.filter (fun b ↦ b.fireAt ≤ fireAt) ++
        ⟨fireAt, seq, kind⟩ :: queue.toList.filter fun b ↦ fireAt < b.fireAt := by
  refine (PriorityQueue.toList_push _ _).trans ?_
  congr 1
  · refine List.filter_congr fun b hb ↦ ?_
    exact decide_eq_decide.mpr (key_lt_fresh_iff hfresh fireAt hb)
  · refine congrArg (_ :: ·) (List.filter_congr fun b hb ↦ ?_)
    exact decide_eq_decide.mpr (fresh_le_key_iff hfresh fireAt hb)

theorem toList_eq_filter_fresh :
    queue.toList = queue.toList.filter (fun b ↦ b.fireAt ≤ fireAt) ++
      queue.toList.filter fun b ↦ fireAt < b.fireAt := by
  refine (queue.toList_eq_filter_append (toLex (fireAt, seq))).trans ?_
  congr 1
  · exact List.filter_congr fun b hb ↦
      decide_eq_decide.mpr (key_lt_fresh_iff hfresh fireAt hb)
  · exact List.filter_congr fun b hb ↦
      decide_eq_decide.mpr (fresh_le_key_iff hfresh fireAt hb)

/-- The view after scheduling an event that it does not leave out. -/
theorem viewOf_push_live {kind : EventKind N} (nodeCount : ℕ) {horizon : Duration}
    (hlive : kind.hidden hides horizon fireAt = false) :
    viewOf hides ops nodeCount horizon (queue.push ⟨fireAt, seq, kind⟩) =
      insertView (viewOf hides ops nodeCount horizon queue)
        (fireAt, kind.viewed ops nodeCount) := by
  unfold viewOf insertView
  rw [toList_push_fresh hfresh, List.filter_append,
    List.filter_cons_of_pos (by simp [Scheduled.live, hlive]),
    List.map_append, List.map_cons, List.filter_map, List.filter_map, List.filter_filter,
    List.filter_filter, List.filter_filter, List.filter_filter]
  simp only [Function.comp_def, Bool.and_comm]

/-- The view after scheduling an operation that it leaves out. -/
theorem viewOf_push_dead {kind : EventKind N} (nodeCount : ℕ) {horizon : Duration}
    (hdead : kind.hidden hides horizon fireAt = true) :
    viewOf hides ops nodeCount horizon (queue.push ⟨fireAt, seq, kind⟩) =
      viewOf hides ops nodeCount horizon queue := by
  unfold viewOf
  rw [toList_push_fresh hfresh, List.filter_append,
    List.filter_cons_of_neg (by simp [Scheduled.live, hdead]), ← List.filter_append,
    ← toList_eq_filter_fresh hfresh fireAt]

end Push

/-! ### Cores with the same view -/

/-- Two cores that differ in their queues and sequence counters only, and hold the same future. -/
inductive SameView (hides : Hides) (ops ops' : List FrozenOp) (core : SchedCore N) :
    SchedCore N → Prop
  | intro (queue : PriorityQueue (Scheduled.key (N := N))) (seq : ℕ)
      (hfresh : Fresh core.queue core.seq) (hfresh' : Fresh queue seq)
      (hview : viewOf hides ops' core.nodeCount.toNat core.horizon queue = core.view hides ops) :
      SameView hides ops ops' core { core with queue := queue, seq := seq }

namespace SameView

variable {core core' : SchedCore N}

/-- Scheduling events that look alike and are not left out. -/
theorem enqueue (h : SameView hides ops ops' core core') {fireAt : Duration}
    {kind kind' : EventKind N}
    (hkind : kind'.viewed ops' core.nodeCount.toNat = kind.viewed ops core.nodeCount.toNat)
    (hlive : kind.hidden hides core.horizon fireAt = false)
    (hlive' : kind'.hidden hides core.horizon fireAt = false) :
    SameView hides ops ops' (core.enqueue fireAt kind) (core'.enqueue fireAt kind') := by
  cases h with
  | intro queue seq hfresh hfresh' hview =>
    refine .intro (queue.push ⟨fireAt, seq, kind'⟩) (seq + 1) (hfresh.push fireAt kind)
      (hfresh'.push fireAt kind') ?_
    change viewOf hides ops' core.nodeCount.toNat core.horizon _ =
      viewOf hides ops core.nodeCount.toNat core.horizon (core.queue.push ⟨fireAt, core.seq, kind⟩)
    rw [viewOf_push_live hfresh' _ _ hlive', viewOf_push_live hfresh _ _ hlive, hkind, hview]
    rfl

theorem closeOp (h : SameView hides ops ops' core core') (token : OpToken) (kind : OpKind)
    (value : Value) :
    SameView hides ops ops' (core.closeOp token kind value) (core'.closeOp token kind value) := by
  cases h with
  | intro queue seq hfresh hfresh' hview =>
    have hcommutes : ({ core with queue := queue, seq := seq } : SchedCore N).closeOp token kind
        value = { core.closeOp token kind value with queue := queue, seq := seq } := by
      have hpending : ({ core with queue := queue, seq := seq } : SchedCore N).pending token =
        core.pending token := rfl
      unfold SchedCore.closeOp
      rw [hpending]
      cases core.pending token <;> rfl
    have hsame := sameQueue_closeOp core token kind value
    rw [hcommutes]
    refine .intro queue seq ?_ hfresh' ?_
    · rw [hsame.queue_eq, hsame.seq_eq]
      exact hfresh
    · rw [SchedCore.view, hsame.nodeCount_eq, hsame.horizon_eq, hsame.queue_eq]
      exact hview

theorem openOp (h : SameView hides ops ops' core core') (process : ProcessId) (f : Function)
    (value : Value) :
    (core'.openOp process f value).1 = (core.openOp process f value).1 ∧
      SameView hides ops ops' (core.openOp process f value).2 (core'.openOp process f value).2 := by
  cases h with
  | intro queue seq hfresh hfresh' hview => exact ⟨rfl, .intro queue seq hfresh hfresh' hview⟩

end SameView

/-! ### Effects -/

namespace SameView

variable {core core' after : SchedCore N}

/-- The copies of a message are scheduled alike. -/
theorem sent (h : SameView hides ops ops' core core') (sender recipient : NodeId)
    (fireAt : Duration)
    (msg : N.Msg) :
    SameView hides ops ops' (core.sent sender recipient fireAt msg)
      (core'.sent sender recipient fireAt msg) := by
  have hdrawn : SameView hides ops ops' (core.drawn sender recipient fireAt)
      (core'.drawn sender recipient fireAt) := by
    cases h with
    | intro queue seq hfresh hfresh' hview => exact .intro queue seq hfresh hfresh' hview
  have hroll : core'.duplicateRoll = core.duplicateRoll := by
    cases h
    rfl
  have hsame : (EventKind.deliver sender recipient msg : EventKind N).viewed ops'
      core.nodeCount.toNat = (EventKind.deliver sender recipient msg).viewed ops
      core.nodeCount.toNat := rfl
  have hone : SameView hides ops ops'
      ((core.drawn sender recipient fireAt).enqueue fireAt (.deliver sender recipient msg))
      ((core'.drawn sender recipient fireAt).enqueue fireAt (.deliver sender recipient msg)) :=
    hdrawn.enqueue hsame rfl rfl
  rw [SchedCore.sent, SchedCore.sent, hroll]
  by_cases hdup : core.duplicateRoll.1 = true
  · rw [if_pos hdup, if_pos hdup]
    exact hone.enqueue hsame rfl rfl
  · rw [if_neg hdup, if_neg hdup]
    exact hone

theorem scheduleDelivery (h : SameView hides ops ops' core core') {sender recipient : NodeId}
    {msg : N.Msg} (hsend : core.scheduleDelivery sender recipient msg = .ok after) :
    ∃ after', core'.scheduleDelivery sender recipient msg = .ok after' ∧
      SameView hides ops ops' after after' := by
  have hconnectedEq : core'.connected sender recipient = core.connected sender recipient := by
    cases h
    rfl
  have hlossEq : core'.lossRoll = core.lossRoll := by
    cases h
    rfl
  have hsumEq : addDuration core'.now (.fromMillis core'.delayDraw.1) =
      addDuration core.now (.fromMillis core.delayDraw.1) := by
    cases h
    rfl
  have hspec := delivery core sender recipient msg
  rw [hsend] at hspec
  cases hspec with
  | cut hconnected =>
    exact ⟨core', scheduleDelivery_cut (hconnectedEq.trans hconnected), h⟩
  | lost hconnected hlost =>
    refine ⟨_, scheduleDelivery_lost (hconnectedEq.trans hconnected) (hlossEq ▸ hlost), ?_⟩
    cases h with
    | intro queue seq hfresh hfresh' hview => exact .intro queue seq hfresh hfresh' hview
  | @sent sampled hconnected hlost hsum =>
    have harrival : core'.arrival sender recipient sampled =
        core.arrival sender recipient sampled := by
      cases h
      rfl
    refine ⟨_, scheduleDelivery_sent (hconnectedEq.trans hconnected) (hlossEq ▸ hlost)
      (hsumEq.trans hsum), ?_⟩
    rw [harrival]
    exact h.sent sender recipient _ msg

theorem broadcast (h : SameView hides ops ops' core core') {sender : NodeId} {msg : N.Msg}
    {peers : List NodeId}
    (hsend : peers.foldlM (fun core peer ↦ core.scheduleDelivery sender peer msg) core =
      .ok after) :
    ∃ after', peers.foldlM (fun core peer ↦ core.scheduleDelivery sender peer msg) core' =
      .ok after' ∧ SameView hides ops ops' after after' := by
  induction peers generalizing core core' with
  | nil =>
    rw [List.foldlM_nil, except_pure_eq_ok] at hsend
    exact ⟨core', rfl, hsend ▸ h⟩
  | cons peer rest ih =>
    rw [List.foldlM_cons, except_bind_eq_ok] at hsend
    obtain ⟨mid, hfirst, hrest⟩ := hsend
    obtain ⟨mid', hfirst', hmid⟩ := h.scheduleDelivery hfirst
    obtain ⟨after', hrest', hafter⟩ := ih hmid hrest
    exact ⟨after', by rw [List.foldlM_cons, except_bind_eq_ok]; exact ⟨mid', hfirst', hrest'⟩,
      hafter⟩

theorem cancelTimer (h : SameView hides ops ops' core core') (node : NodeId) (timer : N.Timer) :
    SameView hides ops ops' (core.cancelTimer node timer) (core'.cancelTimer node timer) := by
  cases h with
  | intro queue seq hfresh hfresh' hview => exact .intro queue seq hfresh hfresh' hview

theorem armTimer (h : SameView hides ops ops' core core') {node : NodeId} {timer : N.Timer}
    {delay : Duration} (harm : core.armTimer node timer delay = .ok after) :
    ∃ after', core'.armTimer node timer delay = .ok after' ∧
      SameView hides ops ops' after after' := by
  have hcancelled := h.cancelTimer node timer
  unfold SchedCore.armTimer at harm ⊢
  simp only at harm ⊢
  have hnow : (core'.cancelTimer node timer).now = (core.cancelTimer node timer).now := by
    cases h
    rfl
  have hgen : (core'.cancelTimer node timer).timerGen = (core.cancelTimer node timer).timerGen := by
    cases h
    rfl
  rw [hnow, hgen]
  split at harm
  · simp at harm
  · rename_i fireAt hsum
    obtain rfl := Except.ok.inj harm
    exact ⟨_, rfl, hcancelled.enqueue rfl rfl rfl⟩

theorem completeOp (h : SameView hides ops ops' core core') (token : OpToken)
    (completion : Completion N.Response) :
    SameView hides ops ops' (Simulator.completeOp codec core token completion)
      (Simulator.completeOp codec core' token completion) := by
  have hpending : core'.pendingF token = core.pendingF token := by
    cases h
    rfl
  cases completion with
  | ok response =>
    have hvalue : completionValue codec core' token response =
        completionValue codec core token response := by
      unfold completionValue
      rw [hpending]
    rw [Simulator.completeOp, Simulator.completeOp, hvalue]
    exact h.closeOp token .ok _
  | fail => exact h.closeOp token .fail .nil
  | info => exact h.closeOp token .info .nil

end SameView

/-- Callbacks act alike on cores with the same view. -/
theorem run_sameView {core core' after : SchedCore N} (h : SameView hides ops ops' core core')
    {me : NodeId} {α : Type} {effects : Effects N.Msg N.Timer N.Response α} {a : α}
    (hrun : effects.run (harnessCtx codec me) core = .ok (a, after)) :
    ∃ after', effects.run (harnessCtx codec me) core' = .ok (a, after') ∧
      SameView hides ops ops' after after' := by
  refine Effects.run_simulation (R := SameView hides ops ops')
    (fun recipient msg s s' t hs hsend ↦ hs.scheduleDelivery hsend)
    (fun msg s s' t hs hsend ↦ ?_) (fun timer delay s s' t hs harm ↦ hs.armTimer harm)
    (fun timer s s' hs ↦ hs.cancelTimer me timer) (fun s s' hs ↦ ?_) (fun s s' hs ↦ ?_) rfl
    (fun token completion s s' hs ↦ hs.completeOp token completion) h hrun
  · obtain ⟨t', hsend', ht⟩ := hs.broadcast hsend
    refine ⟨t', ?_, ht⟩
    have hpeers : s'.peers me = s.peers me := by
      cases hs
      rfl
    change (s'.peers me).foldlM _ s' = _
    rw [hpeers]
    exact hsend'
  · cases hs
    rfl
  · have hanswer : s'.nextU64.1 = s.nextU64.1 := by
      cases hs
      rfl
    refine ⟨hanswer, ?_⟩
    cases hs with
    | intro queue seq hfresh hfresh' hview => exact .intro queue seq hfresh hfresh' hview

/-! ### Dispatch -/

theorem runCallback_sameView {core core' after : SchedCore N}
    (h : SameView hides ops ops' core core')
    {nodes nodes' : List (Option N.State)} {id : NodeId}
    {callback : N.State → Effects N.Msg N.Timer N.Response N.State}
    (hrun : runCallback codec core nodes id callback = .ok (after, nodes')) :
    ∃ after', runCallback codec core' nodes id callback = .ok (after', nodes') ∧
      SameView hides ops ops' after after' := by
  unfold runCallback at hrun ⊢
  split at hrun
  · simp at hrun
  · rename_i hslot
    obtain ⟨rfl, rfl⟩ := Prod.mk.inj (Except.ok.inj hrun)
    exact ⟨core', rfl, h⟩
  · rename_i node hslot
    split at hrun
    · simp at hrun
    · rename_i node' mid hcallback
      obtain ⟨rfl, rfl⟩ := Prod.mk.inj (Except.ok.inj hrun)
      obtain ⟨after', hcallback', hafter⟩ := run_sameView h hcallback
      exact ⟨after', by simp only [hcallback'], hafter⟩

/-- Operations with the same value and the same target are dispatched alike. -/
theorem dispatchClientOp_sameView {core core' after : SchedCore N}
    (h : SameView hides ops ops' core core') {nodes nodes' : List (Option N.State)}
    {process : NodeId}
    {op op' : FrozenOp} (hvalue : op'.op = op.op)
    (htarget : target op' process nodes.length = target op process nodes.length)
    (hdispatch : dispatchClientOp codec core nodes process op = .ok (after, nodes')) :
    ∃ after', dispatchClientOp codec core' nodes process op' = .ok (after', nodes') ∧
      SameView hides ops ops' after after' := by
  have hfunction : opFunction op' = opFunction op := by
    rw [opFunction, opFunction, hvalue]
  unfold dispatchClientOp at hdispatch ⊢
  simp only [hvalue, htarget, hfunction] at hdispatch ⊢
  split at hdispatch
  · rename_i hnone
    obtain ⟨rfl, rfl⟩ := Prod.mk.inj (Except.ok.inj hdispatch)
    obtain ⟨htoken, hopened⟩ := h.openOp ⟨process.id⟩ (opFunction op) op.op
    exact ⟨_, rfl, by rw [htoken]; exact hopened.closeOp _ .fail .nil⟩
  · rename_i f typedOp hdecode
    obtain ⟨htoken, hopened⟩ := h.openOp ⟨process.id⟩ f op.op
    simp only [htoken]
    split at hdispatch
    · simp at hdispatch
    · rename_i hslot
      obtain ⟨rfl, rfl⟩ := Prod.mk.inj (Except.ok.inj hdispatch)
      exact ⟨_, rfl, hopened.closeOp _ .info .nil⟩
    · rename_i node hslot
      split at hdispatch
      · simp at hdispatch
      · rename_i node' outcome mid hcallback
        obtain ⟨mid', hcallback', hmid⟩ := run_sameView hopened hcallback
        simp only [hcallback']
        split at hdispatch
        · obtain ⟨rfl, rfl⟩ := Prod.mk.inj (Except.ok.inj hdispatch)
          exact ⟨_, rfl, hmid.closeOp _ .ok _⟩
        · obtain ⟨rfl, rfl⟩ := Prod.mk.inj (Except.ok.inj hdispatch)
          exact ⟨_, rfl, hmid⟩

/-- Two resolved events do the same: they are equal, or they issue operations with the same value
and the same target. -/
inductive Alike (ops ops' : List FrozenOp) (nodeCount : ℕ) :
    Option (PoppedEvent N) → Option (PoppedEvent N) → Prop
  | same {popped : Option (PoppedEvent N)}
      (hclient : ∀ process index, popped ≠ some (.clientOp process index)) :
      Alike ops ops' nodeCount popped popped
  | issue {process : NodeId} {index index' : ℕ}
      (hop : ops'[index']?.map (fun op ↦ (op.op, target op process nodeCount)) =
        ops[index]?.map fun op ↦ (op.op, target op process nodeCount)) :
      Alike ops ops' nodeCount (some (.clientOp process index)) (some (.clientOp process index'))

/-- What is alike to an event that is handed to the driver is handed to it too. -/
theorem Alike.exists_some {nodeCount : ℕ} {popped : PoppedEvent N}
    {popped' : Option (PoppedEvent N)} (h : Alike ops ops' nodeCount (some popped) popped') :
    ∃ event, popped' = some event := by
  cases h with
  | same => exact ⟨popped, rfl⟩
  | issue => exact ⟨_, rfl⟩

theorem dispatch_sameView {core core' after : SchedCore N} (h : SameView hides ops ops' core core')
    {nodes nodes' : List (Option N.State)} {popped popped' : PoppedEvent N}
    (halike : Alike ops ops' nodes.length (some popped) (some popped'))
    (hdispatch : dispatch codec ops core nodes popped = .ok (after, nodes')) :
    ∃ after', dispatch codec ops' core' nodes popped' = .ok (after', nodes') ∧
      SameView hides ops ops' after after' := by
  cases halike with
  | same hclient =>
    cases popped with
    | deliver sender recipient msg => exact runCallback_sameView h hdispatch
    | timer node timer => exact runCallback_sameView h hdispatch
    | clientOp process index => exact absurd rfl (hclient process index)
    | fault rejoined =>
      cases rejoined with
      | none =>
        obtain ⟨rfl, rfl⟩ := Prod.mk.inj (Except.ok.inj hdispatch)
        exact ⟨core', rfl, h⟩
      | some n => exact runCallback_sameView h hdispatch
  | @issue process index index' hop =>
    simp only [dispatch] at hdispatch ⊢
    split at hdispatch
    · simp at hdispatch
    · rename_i op hget
      rw [hget, Option.map_some, Option.map_eq_some_iff] at hop
      obtain ⟨op', hget', hsame⟩ := hop
      obtain ⟨hvalue, htarget⟩ := Prod.mk.inj hsame
      obtain ⟨after', hdispatch', hafter⟩ :=
        dispatchClientOp_sameView h hvalue htarget hdispatch
      exact ⟨after', by simp only [hget', hdispatch'], hafter⟩

namespace SameView

variable {core core' after : SchedCore N}

theorem closeAll (h : SameView hides ops ops' core core') (tokens : List ℕ) :
    SameView hides ops ops' (core.closeAll tokens) (core'.closeAll tokens) := by
  induction tokens generalizing core core' with
  | nil => exact h
  | cons token rest ih => exact ih (h.closeOp ⟨token⟩ .info .nil)

theorem applyFault (h : SameView hides ops ops' core core') (action : FaultAction) :
    (core'.applyFault action).1 = (core.applyFault action).1 ∧
      SameView hides ops ops' (core.applyFault action).2 (core'.applyFault action).2 := by
  cases action with
  | partition a b =>
    cases h with
    | intro queue seq hfresh hfresh' hview => exact ⟨rfl, .intro queue seq hfresh hfresh' hview⟩
  | healAll =>
    cases h with
    | intro queue seq hfresh hfresh' hview => exact ⟨rfl, .intro queue seq hfresh hfresh' hview⟩
  | restart n =>
    cases h with
    | intro queue seq hfresh hfresh' hview => exact ⟨rfl, .intro queue seq hfresh hfresh' hview⟩
  | crash n =>
    refine ⟨rfl, ?_⟩
    unfold SchedCore.applyFault
    simp only
    have hcrashed : core'.crashed = core.crashed := by
      cases h
      rfl
    have hpending : core'.pendingOps = core.pendingOps := by
      cases h
      rfl
    rw [hcrashed]
    split_ifs
    · rw [hpending]
      exact h.closeAll _
    · rw [hpending]
      refine SameView.closeAll ?_ _
      cases h with
      | intro queue seq hfresh hfresh' hview => exact .intro queue seq hfresh hfresh' hview

theorem resolve_timer_current {node : NodeId} {timer : N.Timer} {gen : ℕ} (fireAt : Duration)
    (seq : ℕ) (hfires : core.timerIsCurrent node timer gen ∧ node ∉ core.crashed) :
    core.resolve ⟨fireAt, seq, .timer node timer gen⟩ =
      (some (.timer node timer), { core with now := fireAt }) :=
  if_pos hfires

theorem resolve_timer_stale {node : NodeId} {timer : N.Timer} {gen : ℕ} (fireAt : Duration)
    (seq : ℕ) (hstale : ¬(core.timerIsCurrent node timer gen ∧ node ∉ core.crashed)) :
    core.resolve ⟨fireAt, seq, .timer node timer gen⟩ = (none, { core with now := fireAt }) :=
  if_neg hstale

/-- Resolving events that look alike. -/
theorem resolve (h : SameView hides ops ops' core core') {event event' : Scheduled N}
    (hfire : event'.fireAt = event.fireAt)
    (hkind : event'.kind.viewed ops' core.nodeCount.toNat =
      event.kind.viewed ops core.nodeCount.toNat) :
    Alike ops ops' core.nodeCount.toNat (core.resolve event).1 (core'.resolve event').1 ∧
      SameView hides ops ops' (core.resolve event).2 (core'.resolve event').2 := by
  have hnow : SameView hides ops ops' { core with now := event.fireAt }
      { core' with now := event.fireAt } := by
    cases h with
    | intro queue seq hfresh hfresh' hview => exact .intro queue seq hfresh hfresh' hview
  obtain ⟨fireAt', seq', kind'⟩ := event'
  obtain ⟨fireAt, seq, kind⟩ := event
  simp only at hfire hkind hnow
  subst hfire
  rcases EventKind.viewed_eq hkind with ⟨rfl, hclient⟩ |
    ⟨process, index, index', rfl, rfl, hop⟩
  · cases kind' with
    | clientOp process index => cases hclient
    | deliver sender recipient msg =>
      have hcrashed : core'.crashed = core.crashed := by
        cases h
        rfl
      by_cases halive : recipient ∉ core.crashed
      · have halive' : recipient ∉ core'.crashed := by rwa [hcrashed]
        rw [SchedCore.resolve, SchedCore.resolve]
        simp only [halive, halive', not_false_eq_true, if_true]
        exact ⟨.same (by simp), hnow⟩
      · have halive' : ¬ recipient ∉ core'.crashed := by rwa [hcrashed]
        rw [SchedCore.resolve, SchedCore.resolve]
        simp only [halive, halive', if_false]
        exact ⟨.same (by simp), hnow⟩
    | timer node timer gen =>
      have hiff : (core'.timerIsCurrent node timer gen ∧ node ∉ core'.crashed) =
          (core.timerIsCurrent node timer gen ∧ node ∉ core.crashed) := by
        cases h
        rfl
      by_cases hfires : core.timerIsCurrent node timer gen ∧ node ∉ core.crashed
      · rw [resolve_timer_current fireAt' seq hfires,
          resolve_timer_current fireAt' seq' (hiff.mpr hfires)]
        exact ⟨.same (by simp), hnow⟩
      · rw [resolve_timer_stale fireAt' seq hfires,
          resolve_timer_stale fireAt' seq' (hiff ▸ hfires)]
        exact ⟨.same (by simp), hnow⟩
    | fault action =>
      obtain ⟨hrejoined, hafter⟩ := hnow.applyFault action
      simp only [SchedCore.resolve, hrejoined]
      exact ⟨.same (by simp), hafter⟩
  · exact ⟨.issue hop, hnow⟩

/-- The next events look alike. Assumes: the next event of the first core is not left out, and none
of the second is that is not after it. -/
theorem pop (h : SameView hides ops ops' core core') {event : Scheduled N}
    {queue : PriorityQueue Scheduled.key} (hpop : core.queue.pop = some (event, queue))
    (hlive : event.live hides core.horizon = true)
    (hfirst : ∀ b ∈ core'.queue.toList, b.fireAt ≤ event.fireAt →
      b.live hides core.horizon = true) :
    ∃ event' queue', core'.queue.pop = some (event', queue') ∧ event'.fireAt = event.fireAt ∧
      event'.kind.viewed ops' core.nodeCount.toNat =
        event.kind.viewed ops core.nodeCount.toNat ∧
      SameView hides ops ops' { core with queue := queue } { core' with queue := queue' } := by
  cases h with
  | intro other seq hfresh hfresh' hview =>
    have hlist := PriorityQueue.pop_eq_some_iff.mp hpop
    have hcons : core.view hides ops =
        (event.fireAt, event.kind.viewed ops core.nodeCount.toNat) ::
          viewOf hides ops core.nodeCount.toNat core.horizon queue := by
      rw [SchedCore.view, viewOf, hlist, List.filter_cons_of_pos hlive, List.map_cons]
      rfl
    obtain ⟨event', rest', hfilter, hsame, hrest⟩ :=
      List.map_eq_cons_iff.mp (hview.trans hcons)
    obtain ⟨hfire, hkind⟩ := Prod.mk.inj hsame
    -- The first event that is not left out is the first event.
    cases hpop' : other.pop with
    | none =>
      rw [PriorityQueue.pop_eq_none_iff.mp hpop'] at hfilter
      simp at hfilter
    | some taken =>
      obtain ⟨head, queue'⟩ := taken
      have hlist' := PriorityQueue.pop_eq_some_iff.mp hpop'
      have hle : head.fireAt ≤ event'.fireAt := by
        have hin : event' ∈ other.toList :=
          (List.mem_filter.mp (hfilter ▸ List.mem_cons_self)).1
        rw [hlist'] at hin
        rcases List.mem_cons.mp hin with rfl | hin
        · exact le_rfl
        · exact Scheduled.fireAt_le_of_key_le (PriorityQueue.key_le_of_pop hpop' event' hin)
      have hhead : head.live hides core.horizon = true := by
        refine hfirst head ?_ (hle.trans_eq hfire)
        change head ∈ other.toList
        rw [hlist']
        exact List.mem_cons_self
      rw [hlist', List.filter_cons_of_pos hhead] at hfilter
      obtain ⟨rfl, rfl⟩ := List.cons.inj hfilter
      refine ⟨head, queue', rfl, hfire, hkind, ?_⟩
      refine .intro queue' seq (fun b hb ↦ ?_)
        (fun b hb ↦ ?_) hrest
      · exact hfresh b (by rw [hlist]; exact List.mem_cons_of_mem _ hb)
      · exact hfresh' b (by rw [hlist']; exact List.mem_cons_of_mem _ hb)

/-- Taking and resolving the next events, which look alike. -/
theorem take (h : SameView hides ops ops' core core') {event : Scheduled N}
    {queue : PriorityQueue Scheduled.key} (hpop : core.queue.pop = some (event, queue))
    (hlive : event.live hides core.horizon = true)
    (hfirst : ∀ b ∈ core'.queue.toList, b.fireAt ≤ event.fireAt →
      b.live hides core.horizon = true) {popped : Option (PoppedEvent N)}
    (hresolve : SchedCore.resolve { core with queue := queue } event = (popped, after)) :
    ∃ event' queue' popped' after', core'.queue.pop = some (event', queue') ∧
      event'.fireAt = event.fireAt ∧
      SchedCore.resolve { core' with queue := queue' } event' = (popped', after') ∧
      Alike ops ops' core.nodeCount.toNat popped popped' ∧
      SameView hides ops ops' after after' := by
  obtain ⟨event', queue', hpop', hfire, hkind, htaken⟩ := h.pop hpop hlive hfirst
  obtain ⟨halike, hview⟩ := htaken.resolve hfire hkind
  rw [hresolve] at halike hview
  exact ⟨event', queue', _, _, hpop', hfire, rfl, halike, hview⟩

end SameView

end Propsim.Simulator
