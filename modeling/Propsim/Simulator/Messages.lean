import Mathlib.Data.Finset.Card
import Mathlib.Order.MinMax
import Propsim.Simulator.Reaching

/-!
# Messages from their sending to their dispatch

The copies of a message are the events that its sending puts into the queue
(`SchedCore.copies`). Every queued delivery is a copy of a message sent before, every copy stays in
the queue until it is taken, and on an ordered network the floor of a link lies above all copies
sent on it (`Networked`). From this follow the guarantees of the network between a call of `send` or
`broadcast` and the dispatch to `on_msg`, in a run that comes to an end (`MessagesKept`) and on the
way to every state that a run reaches (`Arrives.messagesTraced`, `Arrives.inSendingOrder`).
-/

set_option autoImplicit false
set_option relaxedAutoImplicit false

namespace Propsim.Simulator

open Foundation Interchange Propsim.Core

variable {N : Node} {codec : Option (ClientCodec N)} {ops : List FrozenOp}

/-! ### The copies of a message -/

/-- The events that sending a message puts into the queue. -/
def SchedCore.copies (core : SchedCore N) (sender recipient : NodeId) (msg : N.Msg) :
    List (Scheduled N) :=
  match core.scheduleDelivery sender recipient msg with
  | .error _ => []
  | .ok core' => core'.queue.toList.filter fun event ↦ core.seq ≤ event.seq

/-- The copy of a message that arrives at `fireAt` under a sequence number. -/
def copyAt (sender recipient : NodeId) (msg : N.Msg) (fireAt : Duration) (seq : ℕ) :
    Scheduled N := ⟨fireAt, seq, .deliver sender recipient msg⟩

/-- What sending a message queues: nothing when the nodes are not connected or the message is lost,
and else one copy, or two when it is duplicated, at its arrival. -/
inductive Copies (core : SchedCore N) (sender recipient : NodeId) (msg : N.Msg) :
    SchedCore N → List (Scheduled N) → Prop
  | none {core' : SchedCore N}
      (hdropped : core.connected sender recipient = false ∨ core.lossRoll.1 = true)
      (hlink : core'.lastLink = core.lastLink) (hqueue : core'.queue = core.queue)
      (hseq : core'.seq = core.seq) : Copies core sender recipient msg core' []
  | some {core' : SchedCore N} {sampled : Duration} {copies : List (Scheduled N)}
      (hconnected : core.connected sender recipient = true) (hlost : core.lossRoll.1 = false)
      (hsum : addDuration core.now (.fromMillis core.delayDraw.1) = .ok sampled)
      (hlink : core'.lastLink = (core.drawn sender recipient
        (core.arrival sender recipient sampled)).lastLink)
      (hcopies : copies =
        copyAt sender recipient msg (core.arrival sender recipient sampled) core.seq ::
          if core.duplicateRoll.1 then
            [copyAt sender recipient msg (core.arrival sender recipient sampled) (core.seq + 1)]
          else [])
      (hqueue : ∀ event, event ∈ core'.queue.toList ↔ event ∈ copies ∨ event ∈ core.queue.toList)
      (hseq : core'.seq = core.seq + copies.length) : Copies core sender recipient msg core' copies

/-- Scheduling an event adds it to those that are not older than it. -/
theorem filter_enqueue {core : SchedCore N}
    (hfresh : ∀ event ∈ core.queue.toList, event.seq < core.seq) (fireAt : Duration)
    (kind : EventKind N) :
    (core.enqueue fireAt kind).queue.toList.filter (fun event ↦ core.seq ≤ event.seq) =
      [⟨fireAt, core.seq, kind⟩] := by
  have hold : core.queue.toList.filter (fun event ↦ core.seq ≤ event.seq) = [] :=
    List.filter_eq_nil_iff.mpr fun event hevent ↦ by simpa using hfresh event hevent
  refine (core.queue.filter_push_last ⟨fireAt, core.seq, kind⟩ (by simp) fun b hb hp ↦ ?_).trans
    (by rw [hold]; rfl)
  exact absurd (hfresh b hb) (not_lt.mpr (of_decide_eq_true hp))

theorem filter_enqueue_twice {core : SchedCore N}
    (hfresh : ∀ event ∈ core.queue.toList, event.seq < core.seq) (fireAt : Duration)
    (kind : EventKind N) :
    ((core.enqueue fireAt kind).enqueue fireAt kind).queue.toList.filter
        (fun event ↦ core.seq ≤ event.seq) =
      [⟨fireAt, core.seq, kind⟩, ⟨fireAt, core.seq + 1, kind⟩] := by
  have hfirst := filter_enqueue hfresh fireAt kind
  refine ((core.enqueue fireAt kind).queue.filter_push_last ⟨fireAt, core.seq + 1, kind⟩ (by simp)
    fun b hb hp ↦ ?_).trans (by rw [hfirst]; rfl)
  have hin : b ∈ (core.enqueue fireAt kind).queue.toList.filter
      (fun event ↦ core.seq ≤ event.seq) := List.mem_filter.mpr ⟨hb, hp⟩
  rw [hfirst, List.mem_singleton] at hin
  rw [hin, Scheduled.key_lt_iff]
  exact .inr ⟨rfl, Nat.lt_succ_self _⟩

theorem copies_of_ok {core core' : SchedCore N} {sender recipient : NodeId} {msg : N.Msg}
    (hfresh : ∀ event ∈ core.queue.toList, event.seq < core.seq)
    (h : core.scheduleDelivery sender recipient msg = .ok core') :
    Copies core sender recipient msg core' (core.copies sender recipient msg) := by
  have hcopies : core.copies sender recipient msg =
      core'.queue.toList.filter fun event ↦ core.seq ≤ event.seq := by
    rw [SchedCore.copies, h]
  have hold : core.queue.toList.filter (fun event ↦ core.seq ≤ event.seq) = [] :=
    List.filter_eq_nil_iff.mpr fun event hevent ↦ by simpa using hfresh event hevent
  rw [hcopies]
  have hspec := delivery core sender recipient msg
  rw [h] at hspec
  generalize hresult : (Except.ok core' : Except Halt (SchedCore N)) = result at hspec
  cases hspec with
  | cut hcut =>
    obtain rfl := Except.ok.inj hresult
    rw [hold]
    exact .none (.inl hcut) rfl rfl rfl
  | lost hconnected hlost =>
    obtain rfl := Except.ok.inj hresult
    change Copies core sender recipient msg _ (core.queue.toList.filter _)
    rw [hold]
    exact .none (.inr hlost) rfl rfl rfl
  | overflow => cases hresult
  | @sent sampled hconnected hlost hsum =>
    obtain rfl := Except.ok.inj hresult
    let drawn := core.drawn sender recipient (core.arrival sender recipient sampled)
    have hseq : core.seq = drawn.seq := rfl
    have hfresh' : ∀ event ∈ drawn.queue.toList, event.seq < drawn.seq := hfresh
    cases hdup : core.duplicateRoll.1 with
    | false =>
      have hsent : core.sent sender recipient (core.arrival sender recipient sampled) msg =
          drawn.enqueue (core.arrival sender recipient sampled)
            (.deliver sender recipient msg) := by
        rw [SchedCore.sent, hdup]
        rfl
      rw [hsent, hseq, filter_enqueue hfresh']
      refine .some hconnected hlost hsum rfl (by rw [hdup]; rfl) (fun event ↦ ?_) rfl
      rw [List.mem_singleton]
      exact PriorityQueue.mem_push
    | true =>
      have hsent : core.sent sender recipient (core.arrival sender recipient sampled) msg =
          (drawn.enqueue (core.arrival sender recipient sampled)
            (.deliver sender recipient msg)).enqueue (core.arrival sender recipient sampled)
              (.deliver sender recipient msg) := by
        rw [SchedCore.sent, hdup]
        rfl
      rw [hsent, hseq, filter_enqueue_twice hfresh']
      refine .some hconnected hlost hsum rfl (by rw [hdup]; rfl) (fun event ↦ ?_) rfl
      refine PriorityQueue.mem_push.trans ((or_congr_right PriorityQueue.mem_push).trans ?_)
      rw [List.mem_cons, List.mem_singleton, ← or_assoc]
      exact or_congr_left or_comm

/-- A copy of a message that was not dropped: it arrives when the network delivers the message. -/
structure IsCopy (core : SchedCore N) (a b : NodeId) (msg : N.Msg) (event : Scheduled N)
    (sampled : Duration) : Prop where
  connected : core.connected a b = true
  kept : core.lossRoll.1 = false
  sum : addDuration core.now (.fromMillis core.delayDraw.1) = .ok sampled
  kind : event.kind = .deliver a b msg
  fireAt : event.fireAt = core.arrival a b sampled
  seq : core.seq ≤ event.seq

theorem Copies.mem {core core' : SchedCore N} {a b : NodeId} {msg : N.Msg}
    {copies : List (Scheduled N)} (h : Copies core a b msg core' copies) {event : Scheduled N}
    (hevent : event ∈ copies) : ∃ sampled, IsCopy core a b msg event sampled ∧
      core'.lastLink = (core.drawn a b (core.arrival a b sampled)).lastLink := by
  cases h with
  | none => cases hevent
  | some hconnected hlost hsum hlink hcopies =>
    refine ⟨_, ?_, hlink⟩
    rw [hcopies, List.mem_cons] at hevent
    rcases hevent with rfl | hevent
    · exact ⟨hconnected, hlost, hsum, rfl, rfl, le_rfl⟩
    · split_ifs at hevent
      · obtain rfl := List.mem_singleton.mp hevent
        exact ⟨hconnected, hlost, hsum, rfl, rfl, Nat.le_succ _⟩
      · cases hevent

theorem Copies.mem_queue {core core' : SchedCore N} {a b : NodeId} {msg : N.Msg}
    {copies : List (Scheduled N)} (h : Copies core a b msg core' copies) (event : Scheduled N) :
    event ∈ core'.queue.toList ↔ event ∈ copies ∨ event ∈ core.queue.toList := by
  cases h with
  | none _ _ hqueue => simp [hqueue]
  | some _ _ _ _ _ hqueue => exact hqueue event

/-! ### The invariant -/

/-- The largest delay that a model draws, in nanoseconds. -/
def maxDelay (model : NetworkModel) : ℕ :=
  max model.delayMs.start.toNat (model.delayMs.stop.toNat - 1) * 1000000

/-- The moments so far and the network: what is queued was sent, what was sent is queued or taken,
and the floor of a link is above what was sent on it, but not beyond the largest delay. -/
structure Networked (model : NetworkModel) (log : List (Moment N)) (core : SchedCore N) :
    Prop where
  queue : QueueInv (takenIn log) core
  model_eq : core.model = model
  stems : ∀ event ∈ core.queue.toList, ∀ a b msg, event.kind = .deliver a b msg →
    ∃ m ∈ log, m.act = .send a b msg ∧ event ∈ m.core.copies a b msg
  kept : ∀ m ∈ log, ∀ a b msg, m.act = .send a b msg → ∀ event ∈ m.core.copies a b msg,
    event ∈ takenIn log ∨ event ∈ core.queue.toList
  floor : model.ordered = true → ∀ m ∈ log, ∀ a b msg, m.act = .send a b msg →
    ∀ event ∈ m.core.copies a b msg, event.fireAt ≤ core.lastLink (a.id, b.id)
  ceiling : ∀ link, (core.lastLink link).nanos ≤ core.now.nanos + maxDelay model

/-- A step that sends nothing keeps the invariant. Assumes: it queues no delivery, and an event that
it removes from the queue is taken. -/
theorem Networked.of_no_send {model : NetworkModel} {log log' : List (Moment N)}
    {core core' : SchedCore N} (h : Networked model log core)
    (hqueue : QueueInv (takenIn log') core')
    (hsends : ∀ m a b msg, m.act = .send a b msg → (m ∈ log' ↔ m ∈ log))
    (htaken : ∀ event ∈ takenIn log, event ∈ takenIn log') (hmodel : core'.model = core.model)
    (hlink : core'.lastLink = core.lastLink) (hnow : core.now ≤ core'.now)
    (hdeliver : ∀ event ∈ core'.queue.toList, ∀ a b msg, event.kind = .deliver a b msg →
      event ∈ core.queue.toList)
    (hkept : ∀ event ∈ core.queue.toList, event ∈ takenIn log' ∨ event ∈ core'.queue.toList) :
    Networked model log' core' := by
  refine ⟨hqueue, hmodel.trans h.model_eq, fun event hevent a b msg hkind ↦ ?_,
    fun m hm a b msg hact event hevent ↦ ?_, fun hordered m hm a b msg hact event hevent ↦ ?_,
    fun link ↦ ?_⟩
  · obtain ⟨m, hm, hact, hcopy⟩ :=
      h.stems event (hdeliver event hevent a b msg hkind) a b msg hkind
    exact ⟨m, (hsends m a b msg hact).mpr hm, hact, hcopy⟩
  · rcases h.kept m ((hsends m a b msg hact).mp hm) a b msg hact event hevent with hin | hin
    · exact .inl (htaken event hin)
    · exact hkept event hin
  · rw [hlink]
    exact h.floor hordered m ((hsends m a b msg hact).mp hm) a b msg hact event hevent
  · rw [hlink]
    exact (h.ceiling link).trans (Nat.add_le_add_right (Duration.le_iff.mp hnow) _)

theorem mem_append_moment {log : List (Moment N)} {moment : Moment N}
    (hother : ∀ a b msg, moment.act ≠ .send a b msg) (m : Moment N) (a b : NodeId) (msg : N.Msg)
    (hact : m.act = .send a b msg) : m ∈ log ++ [moment] ↔ m ∈ log := by
  rw [List.mem_append, List.mem_singleton, or_iff_left]
  rintro rfl
  exact hother a b msg hact

theorem seq_lt_of_queueInv {taken : List (Scheduled N)} {core : SchedCore N}
    (h : QueueInv taken core) : ∀ event ∈ core.queue.toList, event.seq < core.seq :=
  fun _ hevent ↦ h.seq_lt (List.mem_append_right _ hevent)

/-- A delay is drawn from the range of the model. -/
theorem delayDraw_mem (core : SchedCore N) :
    core.model.delayMs.start.toNat ≤ core.delayDraw.1.toNat ∧
      core.delayDraw.1.toNat ≤
        max core.model.delayMs.start.toNat (core.model.delayMs.stop.toNat - 1) := by
  have hmax : (max core.model.delayMs.stop core.model.delayMs.start) =
      if core.model.delayMs.stop ≤ core.model.delayMs.start then core.model.delayMs.start
      else core.model.delayMs.stop := rfl
  by_cases hempty : core.model.delayMs.stop ≤ core.model.delayMs.start
  · rw [if_pos hempty] at hmax
    have hdraw : core.delayDraw.1 = core.model.delayMs.start := by
      rw [SchedCore.delayDraw, hmax]
      exact SimRng.rangeU64_empty _ (UInt64.le_refl _)
    rw [hdraw]
    exact ⟨le_rfl, le_max_left _ _⟩
  · rw [if_neg hempty] at hmax
    obtain ⟨hlo, hhi⟩ := core.lossRoll.2.rangeU64_mem (UInt64.not_le.mp hempty)
    rw [SchedCore.delayDraw, hmax]
    rw [UInt64.le_iff_toNat_le] at hlo
    rw [UInt64.lt_iff_toNat_lt] at hhi
    exact ⟨hlo, le_max_of_le_right (by omega)⟩

/-- A sampled delivery time lies within the delays of the model. -/
theorem sampled_bounds {core : SchedCore N} {sampled : Duration}
    (hsum : addDuration core.now (.fromMillis core.delayDraw.1) = .ok sampled) :
    core.now.nanos + core.model.delayMs.start.toNat * 1000000 ≤ sampled.nanos ∧
      sampled.nanos ≤ core.now.nanos + maxDelay core.model := by
  obtain ⟨hlo, hhi⟩ := delayDraw_mem core
  rw [nanos_of_addDuration hsum, Duration.nanos_fromMillis]
  exact ⟨Nat.add_le_add_left (Nat.mul_le_mul_right _ hlo) _,
    Nat.add_le_add_left (Nat.mul_le_mul_right _ hhi) _⟩

/-- A message arrives within the delays of the model. Assumes: its floor is not beyond the largest
delay. -/
theorem arrival_bounds {core : SchedCore N} {a b : NodeId} {sampled : Duration}
    (hsum : addDuration core.now (.fromMillis core.delayDraw.1) = .ok sampled)
    (hceiling : (core.lastLink (a.id, b.id)).nanos ≤ core.now.nanos + maxDelay core.model) :
    core.now.nanos + core.model.delayMs.start.toNat * 1000000 ≤
        (core.arrival a b sampled).nanos ∧
      (core.arrival a b sampled).nanos ≤ core.now.nanos + maxDelay core.model := by
  obtain ⟨hlo, hhi⟩ := sampled_bounds hsum
  unfold SchedCore.arrival
  split_ifs
  · refine ⟨hlo.trans (Duration.le_iff.mp (le_max_left _ _)), ?_⟩
    rcases max_choice sampled (core.lastLink (a.id, b.id)) with hmax | hmax
    · rw [hmax]
      exact hhi
    · rw [hmax]
      exact hceiling
  · exact ⟨hlo, hhi⟩

/-- On an ordered network the floor of the link of a message rises to its arrival. -/
theorem lastLink_drawn {core : SchedCore N} (hordered : core.model.ordered = true) (a b : NodeId)
    (fireAt : Duration) :
    (core.drawn a b fireAt).lastLink = Function.update core.lastLink (a.id, b.id) fireAt := by
  rw [SchedCore.drawn, if_pos hordered]

theorem lastLink_le_arrival {core : SchedCore N} (hordered : core.model.ordered = true)
    (a b : NodeId) (sampled : Duration) :
    core.lastLink (a.id, b.id) ≤ core.arrival a b sampled := by
  rw [SchedCore.arrival, if_pos hordered]
  exact le_max_right _ _

/-- What sending a message does to the floors. -/
theorem Copies.floors {core core' : SchedCore N} {a b : NodeId} {msg : N.Msg}
    {copies : List (Scheduled N)} (h : Copies core a b msg core' copies)
    (hceiling : ∀ link, (core.lastLink link).nanos ≤ core.now.nanos + maxDelay core.model) :
    (core.model.ordered = true → (∀ link, core.lastLink link ≤ core'.lastLink link) ∧
      ∀ event ∈ copies, event.fireAt ≤ core'.lastLink (a.id, b.id)) ∧
      ∀ link, (core'.lastLink link).nanos ≤ core.now.nanos + maxDelay core.model := by
  have hmem {event : Scheduled N} (hevent : event ∈ copies) := h.mem hevent
  cases h with
  | none hdropped hlink hqueue hseq =>
    refine ⟨fun _ ↦ ⟨fun link ↦ by rw [hlink], by simp⟩, ?_⟩
    rw [hlink]
    exact hceiling
  | some hconnected hlost hsum hlink hcopies hqueue hseq =>
    refine ⟨fun hordered ↦ ⟨fun link ↦ ?_, fun event hevent ↦ ?_⟩, fun link ↦ ?_⟩
    · rw [hlink, lastLink_drawn hordered, Function.update_apply]
      split_ifs with hsame
      · exact hsame ▸ lastLink_le_arrival hordered a b _
      · exact le_rfl
    · obtain ⟨sampled, hcopy, hlink'⟩ := hmem hevent
      rw [hlink', lastLink_drawn hordered, Function.update_self, hcopy.fireAt]
    · rw [hlink]
      by_cases hordered : core.model.ordered = true
      · rw [lastLink_drawn hordered, Function.update_apply]
        split_ifs
        · exact (arrival_bounds hsum (hceiling _)).2
        · exact hceiling link
      · rw [SchedCore.drawn, if_neg hordered]
        exact hceiling link

/-- Sending a message keeps the invariant. -/
theorem Networked.send {model : NetworkModel} {log : List (Moment N)} {core core' : SchedCore N}
    {a b : NodeId} {msg : N.Msg} (h : Networked model log core)
    (hsend : core.scheduleDelivery a b msg = .ok core')
    (hinv : QueueInv (takenIn (log ++ [⟨core, .send a b msg⟩])) core') :
    Networked model (log ++ [⟨core, .send a b msg⟩]) core' := by
  obtain rfl := h.model_eq
  have hframe := scheduleDelivery_frame hsend
  have hnow : core'.now = core.now := by rw [hframe]
  have htaken : takenIn (log ++ [⟨core, .send a b msg⟩]) = takenIn log :=
    takenIn_append_other log rfl
  have hcopies := copies_of_ok (seq_lt_of_queueInv h.queue) hsend
  have hmem := hcopies.mem_queue
  obtain ⟨hfloor, hceiling⟩ := hcopies.floors h.ceiling
  have hnew : (⟨core, .send a b msg⟩ : Moment N) ∈ log ++ [⟨core, .send a b msg⟩] := by simp
  refine ⟨hinv, by rw [hframe], fun event hevent a' b' msg' hkind ↦ ?_,
    fun m hm a' b' msg' hact event hevent ↦ ?_,
    fun hordered m hm a' b' msg' hact event hevent ↦ ?_, fun link ↦ hnow ▸ hceiling link⟩
  · rcases (hmem event).mp hevent with hcopy | hold
    · obtain ⟨sampled, hcopy', -⟩ := hcopies.mem hcopy
      obtain ⟨rfl, rfl, rfl⟩ := EventKind.deliver.inj (hcopy'.kind.symm.trans hkind)
      exact ⟨_, hnew, rfl, hcopy⟩
    · obtain ⟨m, hm, hact, hcopy⟩ := h.stems event hold a' b' msg' hkind
      exact ⟨m, List.mem_append_left _ hm, hact, hcopy⟩
  · rw [htaken]
    rcases List.mem_append.mp hm with hm | hm
    · rcases h.kept m hm a' b' msg' hact event hevent with hin | hin
      · exact .inl hin
      · exact .inr ((hmem event).mpr (.inr hin))
    · obtain rfl := List.mem_singleton.mp hm
      obtain ⟨rfl, rfl, rfl⟩ := Act.send.inj hact
      exact .inr ((hmem event).mpr (.inl hevent))
  · obtain ⟨hrises, habove⟩ := hfloor hordered
    rcases List.mem_append.mp hm with hm | hm
    · exact (h.floor hordered m hm a' b' msg' hact event hevent).trans (hrises _)
    · obtain rfl := List.mem_singleton.mp hm
      obtain ⟨rfl, rfl, rfl⟩ := Act.send.inj hact
      exact habove event hevent

/-- Every step keeps the invariant. -/
theorem MomentStep.networked {model : NetworkModel} {x y : List (Moment N) × SchedCore N}
    (h : MomentStep x y) (hx : Networked model x.1 x.2) : Networked model y.1 y.2 := by
  have hinv := h.queueInv hx.queue
  cases h with
  | quiet log core =>
    exact hx.of_no_send hinv (fun _ _ _ _ _ ↦ Iff.rfl) (fun _ ↦ id) rfl rfl le_rfl
      (fun _ hevent _ _ _ _ ↦ hevent) fun _ ↦ .inr
  | issue log core process index hlater =>
    refine hx.of_no_send hinv (fun _ _ _ _ _ ↦ Iff.rfl) (fun _ ↦ id) rfl rfl le_rfl
      (fun event hevent a b msg hkind ↦ ?_)
      fun event hevent ↦ .inr (PriorityQueue.mem_push.mpr (.inr hevent))
    rcases PriorityQueue.mem_push.mp hevent with rfl | hevent
    · cases hkind
    · exact hevent
  | send log hsend => exact hx.send hsend hinv
  | setTimer log hset =>
    obtain ⟨fireAt, hsum, rfl⟩ := armTimer_eq_ok hset
    refine hx.of_no_send hinv (mem_append_moment (by simp)) (fun _ ↦ mem_takenIn_append _) rfl rfl
      le_rfl (fun event hevent a b msg hkind ↦ ?_)
      fun event hevent ↦ .inr (PriorityQueue.mem_push.mpr (.inr hevent))
    rcases PriorityQueue.mem_push.mp hevent with rfl | hevent
    · cases hkind
    · exact hevent
  | cancelTimer log core node timer =>
    exact hx.of_no_send hinv (mem_append_moment (by simp)) (fun _ ↦ mem_takenIn_append _) rfl rfl
      le_rfl (fun _ hevent _ _ _ _ ↦ hevent) fun _ ↦ .inr
  | @take log core core' event queue popped hpop hbelow hresolve =>
    have hlist := PriorityQueue.pop_eq_some_iff.mp hpop
    obtain ⟨hmodel, hlink, -⟩ := resolve_frame hresolve
    have hsame := sameQueue_resolve hresolve
    have hhead : event ∈ core.queue.toList := by rw [hlist]; exact List.mem_cons_self
    have hqueue : core'.queue = queue := hsame.queue_eq
    refine hx.of_no_send hinv (mem_append_moment (by simp)) (fun _ ↦ mem_takenIn_append _) hmodel
      hlink (hsame.now_eq.symm ▸ hx.queue.later event hhead) (fun other hother _ _ _ _ ↦ ?_)
      fun other hother ↦ ?_
    · rw [hqueue] at hother
      change other ∈ core.queue.toList
      rw [hlist]
      exact List.mem_cons_of_mem _ hother
    · change other ∈ core.queue.toList at hother
      rw [hlist, List.mem_cons] at hother
      rw [takenIn_append_take, hqueue]
      rcases hother with rfl | hother
      · exact .inl (List.mem_append_right _ (List.mem_singleton_self _))
      · exact .inr hother

/-! ### Messages of a run -/

section Courses

variable {data : PlanData} {workload : Option Strategy} {seed : Seed}

/-- Lowering sends nothing. -/
theorem networked_prepared {prepared : SchedCore N}
    (hprepare : prepareCore N data seed = .ok prepared) :
    Networked prepared.model [] prepared := by
  obtain ⟨hdeliver, hlink⟩ := prepared_core
    (P := fun core : SchedCore N ↦ (∀ event ∈ core.queue.toList, ∀ a b msg,
      event.kind ≠ .deliver a b msg) ∧ ∀ link, core.lastLink link = .zero)
    (fun core fireAt action h ↦ ⟨fun event hevent a b msg ↦ by
      rcases PriorityQueue.mem_push.mp hevent with rfl | hevent
      · simp
      · exact h.1 event hevent a b msg, h.2⟩)
    (fun _ _ h ↦ h) hprepare fun _ _ ↦ ⟨by simp [SchedCore.new], fun _ ↦ rfl⟩
  refine ⟨queueInv_prepared hprepare, rfl,
    fun event hevent a b msg hkind ↦ absurd hkind (hdeliver event hevent a b msg), by simp,
    by simp, fun link ↦ ?_⟩
  rw [hlink]
  exact Nat.zero_le _

theorem networked_of_steps {core₀ core : SchedCore N} {log : List (Moment N)}
    (h : MomentSteps ([], core₀) (log, core)) (h₀ : Networked core₀.model [] core₀) :
    Networked core₀.model log core :=
  h.invariant (P := Networked core₀.model) (fun _ _ hstep ↦ hstep.networked) h₀

theorem Course.networked (c : Course N data seed) :
    Networked c.prepared.model c.moments c.core :=
  networked_of_steps c.steps (networked_prepared c.prepare_eq)

/-- The invariant holds at every moment of a run. -/
theorem Course.networked_at (c : Course N data seed) {k : ℕ} {m : Moment N}
    (hk : c.moments[k]? = some m) : Networked c.prepared.model (c.moments.take k) m.core :=
  networked_of_steps (c.steps.through hk).1 (networked_prepared c.prepare_eq)

/-- The event that a moment takes is queued there. -/
theorem Course.queued_at (c : Course N data seed) {k : ℕ}
    {core : SchedCore N} {event : Scheduled N} (hk : c.moments[k]? = some ⟨core, .take event⟩) :
    event ∈ core.queue.toList := by
  obtain ⟨-, core', hleads, -⟩ := c.steps.through hk
  obtain ⟨queue, popped, hpop, -⟩ := hleads
  exact PriorityQueue.mem_of_pop hpop

/-- A message is dispatched to `on_msg` at a moment: the event taken there resolves to it. -/
def DispatchesAt (log : List (Moment N)) (k : ℕ) (event : Scheduled N) (a b : NodeId)
    (msg : N.Msg) : Prop :=
  ∃ core, log[k]? = some ⟨core, .take event⟩ ∧
    (core.resolve event).1 = some (.deliver a b msg)

theorem resolve_eq_deliver {core : SchedCore N} {event : Scheduled N} {a b : NodeId}
    {msg : N.Msg} : (core.resolve event).1 = some (.deliver a b msg) ↔
      event.kind = .deliver a b msg ∧ b ∉ core.crashed := by
  constructor
  · intro h
    cases hkind : event.kind with
    | deliver a' b' msg' =>
      simp only [SchedCore.resolve, hkind] at h
      split_ifs at h with hcrashed
      obtain ⟨rfl, rfl, rfl⟩ := PoppedEvent.deliver.inj (Option.some.inj h)
      exact ⟨rfl, hcrashed⟩
    | timer node timer gen =>
      simp only [SchedCore.resolve, hkind] at h
      split_ifs at h
      cases h
    | clientOp process index => simp [SchedCore.resolve, hkind] at h
    | fault action => simp [SchedCore.resolve, hkind] at h
  · rintro ⟨hkind, hup⟩
    simp [SchedCore.resolve, hkind, hup]

/-- Two nodes are up and in the same partition group. -/
theorem connected_iff {core : SchedCore N} {a b : NodeId} :
    core.connected a b = true ↔ a ∉ core.crashed ∧ b ∉ core.crashed ∧
      (core.partitions = [] ∨ ∃ group ∈ core.partitions, a ∈ group ∧ b ∈ group) := by
  unfold SchedCore.connected
  split_ifs with hdown hwhole
  · simp only [false_iff]
    tauto
  · rw [List.isEmpty_iff] at hwhole
    simp only [true_iff]
    tauto
  · rw [List.isEmpty_iff] at hwhole
    simp only [List.any_eq_true, decide_eq_true_eq]
    tauto

/-- Events are taken in the order of their keys. -/
theorem Course.key_lt_of_lt (c : Course N data seed) {k k' : ℕ}
    {core core' : SchedCore N} {event event' : Scheduled N}
    (hk : c.moments[k]? = some ⟨core, .take event⟩)
    (hk' : c.moments[k']? = some ⟨core', .take event'⟩) (hlt : k < k') :
    event.key < event'.key :=
  (c.networked_at hk').queue.ahead event (mem_takenIn_take hk hlt) event' (c.queued_at hk')

theorem Course.lt_of_key_lt (c : Course N data seed) {k k' : ℕ}
    {core core' : SchedCore N} {event event' : Scheduled N}
    (hk : c.moments[k]? = some ⟨core, .take event⟩)
    (hk' : c.moments[k']? = some ⟨core', .take event'⟩) (hkey : event.key < event'.key) :
    k < k' := by
  by_contra hle
  rcases (not_lt.mp hle).lt_or_eq with hlt | rfl
  · exact lt_asymm hkey (c.key_lt_of_lt hk' hk hlt)
  · obtain ⟨-, hact⟩ := Moment.mk.inj (Option.some.inj (hk.symm.trans hk'))
    obtain rfl := Act.take.inj hact
    exact lt_irrefl _ hkey

/-- An event is taken at one moment. -/
theorem Course.take_unique (c : Course N data seed) {k k' : ℕ}
    {core core' : SchedCore N} {event : Scheduled N}
    (hk : c.moments[k]? = some ⟨core, .take event⟩)
    (hk' : c.moments[k']? = some ⟨core', .take event⟩) : k = k' := by
  rcases lt_trichotomy k k' with hlt | heq | hgt
  · exact absurd (c.key_lt_of_lt hk hk' hlt) (lt_irrefl _)
  · exact heq
  · exact absurd (c.key_lt_of_lt hk' hk hgt) (lt_irrefl _)

/-- What sending a message queues, at its moment. -/
theorem Course.copies_at (c : Course N data seed) {i : ℕ}
    {core : SchedCore N} {a b : NodeId} {msg : N.Msg}
    (hi : c.moments[i]? = some ⟨core, .send a b msg⟩) :
    core.model = c.prepared.model ∧ ∃ core', Copies core a b msg core' (core.copies a b msg) := by
  have hinv := c.networked_at hi
  obtain ⟨-, core', hleads, -⟩ := c.steps.through hi
  exact ⟨hinv.model_eq, core', copies_of_ok (seq_lt_of_queueInv hinv.queue) hleads⟩

/-- A copy of a message at its moment arrives within the delays of the model. -/
theorem Course.isCopy_at (c : Course N data seed) {i : ℕ}
    {core : SchedCore N} {a b : NodeId} {msg : N.Msg} {event : Scheduled N}
    (hi : c.moments[i]? = some ⟨core, .send a b msg⟩) (hevent : event ∈ core.copies a b msg) :
    ∃ sampled, IsCopy core a b msg event sampled ∧
      core.now.nanos + c.prepared.model.delayMs.start.toNat * 1000000 ≤ event.fireAt.nanos ∧
      event.fireAt.nanos ≤ core.now.nanos + maxDelay c.prepared.model := by
  obtain ⟨hmodel, core', hcopies⟩ := c.copies_at hi
  obtain ⟨sampled, hcopy, -⟩ := hcopies.mem hevent
  have hbounds := arrival_bounds (b := b) (a := a) hcopy.sum
    (hmodel ▸ (c.networked_at hi).ceiling (a.id, b.id))
  rw [← hcopy.fireAt, hmodel] at hbounds
  exact ⟨sampled, hcopy, hbounds⟩

/-- A queued delivery that is taken was sent before, and by one call. -/
theorem Course.stems (c : Course N data seed) {k : ℕ} {core : SchedCore N}
    {event : Scheduled N} {a b : NodeId} {msg : N.Msg}
    (hk : c.moments[k]? = some ⟨core, .take event⟩) (hkind : event.kind = .deliver a b msg) :
    ∃ i < k, ∃ core', c.moments[i]? = some ⟨core', .send a b msg⟩ ∧
      event ∈ core'.copies a b msg := by
  obtain ⟨⟨core', act⟩, hm, rfl, hcopy⟩ :=
    (c.networked_at hk).stems event (c.queued_at hk) a b msg hkind
  obtain ⟨i, hlt, hi⟩ := mem_take_iff.mp hm
  exact ⟨i, hlt, core', hi, hcopy⟩

/-- The copies of a later message have later sequence numbers. -/
theorem Course.seq_lt_of_lt (c : Course N data seed) {i j : ℕ}
    {core core' : SchedCore N} {a b a' b' : NodeId} {msg msg' : N.Msg} {event event' : Scheduled N}
    (hi : c.moments[i]? = some ⟨core, .send a b msg⟩) (hevent : event ∈ core.copies a b msg)
    (hj : c.moments[j]? = some ⟨core', .send a' b' msg'⟩)
    (hevent' : event' ∈ core'.copies a' b' msg') (hlt : i < j) : event.seq < event'.seq := by
  have hinv := c.networked_at hj
  obtain ⟨sampled, hcopy, -⟩ := c.isCopy_at hj hevent'
  have hold : event ∈ takenIn (c.moments.take j) ++ core'.queue.toList :=
    List.mem_append.mpr (hinv.kept ⟨core, .send a b msg⟩
      (mem_take_iff.mpr ⟨i, hlt, hi⟩) a b msg rfl event hevent)
  exact (hinv.queue.seq_lt hold).trans_le hcopy.seq

/-- An event is a copy of one message. -/
theorem Course.send_unique (c : Course N data seed) {i j : ℕ}
    {core core' : SchedCore N} {a b a' b' : NodeId} {msg msg' : N.Msg} {event : Scheduled N}
    (hi : c.moments[i]? = some ⟨core, .send a b msg⟩) (hevent : event ∈ core.copies a b msg)
    (hj : c.moments[j]? = some ⟨core', .send a' b' msg'⟩)
    (hevent' : event ∈ core'.copies a' b' msg') : i = j := by
  rcases lt_trichotomy i j with hlt | heq | hgt
  · exact absurd (c.seq_lt_of_lt hi hevent hj hevent' hlt) (lt_irrefl _)
  · exact heq
  · exact absurd (c.seq_lt_of_lt hj hevent' hi hevent hgt) (lt_irrefl _)

/-- A copy of a message is queued until it is taken. -/
theorem Course.copy_kept (c : Course N data seed) {i : ℕ} {core : SchedCore N} {a b : NodeId}
    {msg : N.Msg} {event : Scheduled N} (hi : c.moments[i]? = some ⟨core, .send a b msg⟩)
    (hevent : event ∈ core.copies a b msg) :
    event ∈ takenIn c.moments ∨ event ∈ c.core.queue.toList :=
  c.networked.kept _ (List.mem_of_getElem? hi) a b msg rfl event hevent

/-- The messages of a run: each that is dispatched stems from one earlier call that sends it,
between nodes that were up and in one partition group, and the time from the call to the dispatch
lies within the delays of the network model; and a call yields two dispatches at most, or one when
nothing is duplicated. -/
structure MessagesTraced (model : NetworkModel) (log : List (Moment N)) : Prop where
  stems : ∀ k event a b msg, DispatchesAt log k event a b msg →
    ∃! i : ℕ, i < k ∧ ∃ core : SchedCore N, log[i]? = some ⟨core, .send a b msg⟩ ∧
      event ∈ core.copies a b msg ∧
      (a ∉ core.crashed ∧ b ∉ core.crashed ∧
        (core.partitions = [] ∨ ∃ group ∈ core.partitions, a ∈ group ∧ b ∈ group)) ∧
      core.now.nanos + model.delayMs.start.toNat * 1000000 ≤ event.fireAt.nanos ∧
      event.fireAt.nanos ≤ core.now.nanos + maxDelay model
  twice : ∀ (i : ℕ) core a b msg, log[i]? = some ⟨core, .send a b msg⟩ → ∀ ks : Finset ℕ,
    (∀ k ∈ ks, ∃ event ∈ core.copies a b msg, DispatchesAt log k event a b msg) → ks.card ≤ 2
  once : model.duplicate.value.le .zero = true →
    ∀ (i : ℕ) core a b msg, log[i]? = some ⟨core, .send a b msg⟩ → ∀ ks : Finset ℕ,
      (∀ k ∈ ks, ∃ event ∈ core.copies a b msg, DispatchesAt log k event a b msg) → ks.card ≤ 1

/-- A roll for an event that never happens. -/
theorem chance_never (rng : SimRng) {p : Binary64} (h : p.le .zero = true) :
    rng.chance p = (false, rng) := by
  rw [SimRng.chance, if_pos h]

/-- The dispatches of the copies in a list are as many as the list is long, at most. -/
theorem Course.card_dispatches (c : Course N data seed)
    (copies : List (Scheduled N)) (a b : NodeId) (msg : N.Msg) (ks : Finset ℕ)
    (h : ∀ k ∈ ks, ∃ event ∈ copies, DispatchesAt c.moments k event a b msg) :
    ks.card ≤ copies.length := by
  classical
  have htaken {k : ℕ} (hk : k ∈ ks) : ∃ event ∈ copies,
      (c.moments[k]?).bind Moment.taken = some event := by
    obtain ⟨event, hevent, core, hmoment, -⟩ := h k hk
    exact ⟨event, hevent, by rw [hmoment]; rfl⟩
  have hinto : ∀ k ∈ ks, (c.moments[k]?).bind Moment.taken ∈ (copies.map some).toFinset := by
    intro k hk
    obtain ⟨event, hevent, heq⟩ := htaken hk
    rw [heq, List.mem_toFinset]
    exact List.mem_map_of_mem hevent
  have hinj : Set.InjOn (fun k ↦ (c.moments[k]?).bind Moment.taken) (ks : Set ℕ) := by
    intro k hk k' hk' hsame
    obtain ⟨event, -, core, hmoment, -⟩ := h k hk
    obtain ⟨event', -, core', hmoment', -⟩ := h k' hk'
    simp only [hmoment, hmoment', Option.bind_some] at hsame
    obtain rfl : event = event' := Option.some.inj hsame
    exact c.take_unique hmoment hmoment'
  refine (Finset.card_le_card_of_injOn _ hinto hinj).trans ?_
  exact (List.toFinset_card_le _).trans_eq (List.length_map _)

/-- A message has two copies at most. -/
theorem Copies.length_le_two {core core' : SchedCore N} {a b : NodeId} {msg : N.Msg}
    {copies : List (Scheduled N)} (h : Copies core a b msg core' copies) : copies.length ≤ 2 := by
  cases h with
  | none => exact Nat.zero_le 2
  | some _ _ _ _ hcopies =>
    rw [hcopies]
    split_ifs
    · exact le_rfl
    · exact Nat.le_succ 1

/-- A message has one copy at most when nothing is duplicated, and exactly one when it is not
dropped either. -/
theorem Copies.of_no_duplicate {core core' : SchedCore N} {a b : NodeId} {msg : N.Msg}
    {copies : List (Scheduled N)} (h : Copies core a b msg core' copies)
    (hdup : core.model.duplicate.value.le .zero = true) :
    copies.length ≤ 1 ∧ (core.connected a b = true → core.model.loss.value.le .zero = true →
      ∃ event, copies = [event]) := by
  cases h with
  | none hdropped =>
    refine ⟨Nat.zero_le 1, fun hconnected hloss ↦ ?_⟩
    have hroll : core.lossRoll.1 = false := by rw [SchedCore.lossRoll, chance_never _ hloss]
    simp [hconnected, hroll] at hdropped
  | some _ _ _ _ hcopies =>
    have hroll : core.duplicateRoll.1 = false := by
      rw [SchedCore.duplicateRoll, chance_never _ hdup]
    rw [hroll] at hcopies
    rw [hcopies]
    exact ⟨le_rfl, fun _ _ ↦ ⟨_, rfl⟩⟩

/-- The messages of every run are traced, whether or not it comes to its end. -/
theorem Course.messagesTraced (c : Course N data seed) :
    MessagesTraced c.prepared.model c.moments := by
  refine ⟨fun k event a b msg hdispatch ↦ ?_, fun i core a b msg hi ks hks ↦ ?_,
    fun hdup i core a b msg hi ks hks ↦ ?_⟩
  · obtain ⟨core, hk, hresolve⟩ := hdispatch
    obtain ⟨i, hik, core', hi, hcopy⟩ := c.stems hk (resolve_eq_deliver.mp hresolve).1
    obtain ⟨sampled, hiscopy, hlo, hhi⟩ := c.isCopy_at hi hcopy
    refine ⟨i, ⟨hik, core', hi, hcopy, connected_iff.mp hiscopy.connected, hlo, hhi⟩, ?_⟩
    rintro j ⟨-, core'', hj, hcopy', -⟩
    exact c.send_unique hj hcopy' hi hcopy
  · obtain ⟨-, core', hcopies⟩ := c.copies_at hi
    exact (c.card_dispatches _ a b msg ks hks).trans hcopies.length_le_two
  · obtain ⟨hmodel, core', hcopies⟩ := c.copies_at hi
    rw [← hmodel] at hdup
    exact (c.card_dispatches _ a b msg ks hks).trans (hcopies.of_no_duplicate hdup).1

/-- On an ordered network the copies of an earlier message on a link come before those of a later
one. -/
theorem Course.key_lt_of_ordered (c : Course N data seed)
    (hordered : c.prepared.model.ordered = true) {i j : ℕ} {core core' : SchedCore N} {a b : NodeId}
    {msg msg' : N.Msg} {event event' : Scheduled N}
    (hi : c.moments[i]? = some ⟨core, .send a b msg⟩) (hevent : event ∈ core.copies a b msg)
    (hj : c.moments[j]? = some ⟨core', .send a b msg'⟩) (hevent' : event' ∈ core'.copies a b msg')
    (hlt : i < j) : event.key < event'.key := by
  have hinv := c.networked_at hj
  obtain ⟨sampled, hcopy, -⟩ := c.isCopy_at hj hevent'
  have hfloor : event.fireAt ≤ core'.lastLink (a.id, b.id) :=
    hinv.floor hordered ⟨core, .send a b msg⟩
      (mem_take_iff.mpr ⟨i, hlt, hi⟩) a b msg rfl event hevent
  have harrival : core'.lastLink (a.id, b.id) ≤ event'.fireAt := by
    rw [hcopy.fireAt]
    exact lastLink_le_arrival (hinv.model_eq ▸ hordered) a b sampled
  exact key_lt_of_fresh (hfloor.trans harrival) (c.seq_lt_of_lt hi hevent hj hevent' hlt)

/-- On every link the copies of an earlier message are dispatched before those of a later one. -/
def InSendingOrder (log : List (Moment N)) : Prop :=
  ∀ (i j : ℕ) (core core' : SchedCore N) a b msg msg',
    i < j → log[i]? = some ⟨core, .send a b msg⟩ → log[j]? = some ⟨core', .send a b msg'⟩ →
      ∀ event ∈ core.copies a b msg, ∀ event' ∈ core'.copies a b msg', ∀ k k',
        DispatchesAt log k event a b msg → DispatchesAt log k' event' a b msg' → k < k'

/-- An ordered network keeps the order of sending, whether or not the run comes to its end. -/
theorem Course.inSendingOrder (c : Course N data seed)
    (hordered : c.prepared.model.ordered = true) : InSendingOrder c.moments := by
  intro i j core core' a b msg msg' hlt hi hj event hevent event' hevent' k k' hdispatch hdispatch'
  obtain ⟨before, hk, -⟩ := hdispatch
  obtain ⟨before', hk', -⟩ := hdispatch'
  exact c.lt_of_key_lt hk hk' (c.key_lt_of_ordered hordered hi hevent hj hevent' hlt)

/-- The messages are traced up to every state that a run reaches. -/
theorem Arrives.messagesTraced {prepared : SchedCore N} {started state : RunState N}
    {log : List (Moment N)} (h : Arrives codec ops prepared started log state)
    (hprepare : prepareCore N data seed = .ok prepared)
    (hstart : startRun codec ops prepared = .ok started) : MessagesTraced prepared.model log :=
  (h.course hprepare hstart).messagesTraced

/-- An ordered network keeps the order of sending up to every state that a run reaches. -/
theorem Arrives.inSendingOrder {prepared : SchedCore N} {started state : RunState N}
    {log : List (Moment N)} (h : Arrives codec ops prepared started log state)
    (hprepare : prepareCore N data seed = .ok prepared)
    (hstart : startRun codec ops prepared = .ok started)
    (hordered : prepared.model.ordered = true) : InSendingOrder log :=
  (h.course hprepare hstart).inSendingOrder hordered

end Courses

section Executions

variable {data : PlanData} {workload : Option Strategy} {seed : Seed}

/-- A queued copy that is due below the horizon is taken before the loop ends. -/
theorem Execution.copy_taken (e : Execution N data workload codec seed) {i : ℕ}
    {core : SchedCore N} {a b : NodeId} {msg : N.Msg} {event : Scheduled N}
    (hi : e.moments[i]? = some ⟨core, .send a b msg⟩) (hevent : event ∈ core.copies a b msg)
    (hbelow : event.fireAt < e.final.core.horizon) :
    ∃ (k : ℕ) (core' : SchedCore N), e.moments[k]? = some ⟨core', .take event⟩ := by
  rcases e.course.copy_kept hi hevent with htaken | hqueued
  · obtain ⟨⟨core', act⟩, hm, rfl⟩ := mem_takenIn.mp htaken
    obtain ⟨k, hk⟩ := List.mem_iff_getElem?.mp hm
    exact ⟨k, core', hk⟩
  · obtain ⟨hstops, -⟩ := e.loop.stops
    rw [hstops.keeps.1] at hbelow
    exact absurd (hstops.horizon_le.1 event hqueued) (not_le.mpr hbelow)

/-- The messages of an execution: besides that, when nothing is lost or duplicated, what is sent
between connected nodes is dispatched exactly once, if it arrives below the horizon at a recipient
that is up. -/
structure MessagesKept (e : Execution N data workload codec seed) : Prop
    extends MessagesTraced e.prepared.model e.moments where
  exactlyOnce : e.prepared.model.loss.value.le .zero = true →
    e.prepared.model.duplicate.value.le .zero = true →
    ∀ (i : ℕ) core a b msg, e.moments[i]? = some ⟨core, .send a b msg⟩ →
      core.connected a b = true → ∃ event, core.copies a b msg = [event] ∧
        (event.fireAt < e.final.core.horizon → ∃ (k : ℕ) (core' : SchedCore N),
          e.moments[k]? = some ⟨core', .take event⟩ ∧
          (b ∉ core'.crashed → ∃! k, DispatchesAt e.moments k event a b msg))

theorem Execution.messagesKept (e : Execution N data workload codec seed) : MessagesKept e := by
  refine ⟨e.course.messagesTraced, fun hloss hdup i core a b msg hi hconnected ↦ ?_⟩
  obtain ⟨hmodel, core', hcopies⟩ := e.course.copies_at hi
  have hmodel : core.model = e.prepared.model := hmodel
  rw [← hmodel] at hloss hdup
  obtain ⟨event, hevent⟩ := (hcopies.of_no_duplicate hdup).2 hconnected hloss
  have hmem : event ∈ core.copies a b msg := hevent ▸ List.mem_singleton_self event
  refine ⟨event, hevent, fun hbelow ↦ ?_⟩
  obtain ⟨k, core'', hk⟩ := e.copy_taken hi hmem hbelow
  obtain ⟨sampled, hcopy, -⟩ := e.course.isCopy_at hi hmem
  refine ⟨k, core'', hk, fun hup ↦ ⟨k, ?_, ?_⟩⟩
  · exact ⟨core'', hk, resolve_eq_deliver.mpr ⟨hcopy.kind, hup⟩⟩
  · rintro k' ⟨final, hk', -⟩
    exact e.course.take_unique hk' hk

/-- In every run whose loop ends, the network keeps its messages. -/
theorem runDeterministic_messagesKept {fuel : ℕ} {nodeDef : Option NodeDef} {run : TypedRun N}
    (h : runDeterministic fuel data nodeDef workload codec seed = .ok (.ok run)) :
    ∃ e : Execution N data workload codec seed, e.result = run ∧ MessagesKept e := by
  obtain ⟨e, he⟩ := exists_execution h
  exact ⟨e, he, e.messagesKept⟩

/-- In every run on an ordered network whose loop ends, and on every link, the copies of an earlier
message are dispatched before those of a later one. -/
theorem runDeterministic_fifo {fuel : ℕ} {nodeDef : Option NodeDef} {run : TypedRun N}
    (h : runDeterministic fuel data nodeDef workload codec seed = .ok (.ok run)) :
    ∃ e : Execution N data workload codec seed, e.result = run ∧
      (e.prepared.model.ordered = true → InSendingOrder e.moments) := by
  obtain ⟨e, he⟩ := exists_execution h
  exact ⟨e, he, fun hordered ↦ e.course.inSendingOrder hordered⟩

end Executions

/-! ### A courier -/

/-- A node that sends two messages to node 1 for each client operation, and counts those that
arrive. -/
def courier : Node where
  State := ℕ
  Msg := Bool
  Timer := Unit
  Op := Unit
  Response := Unit
  default := (0 : ℕ)
  debug _ := "()"
  onStart count := .done count
  onMsg count _ _ := .done (Nat.succ count)
  onTimer count _ := .done count
  onClientOp count _ _ := .send ⟨1⟩ true (.send ⟨1⟩ false (.done (count, .done ())))

/-- The codec of the courier accepts every operation. -/
def courierCodec : ClientCodec courier where
  decode _ := some (⟨"send"⟩, ())
  encodeResponse _ _ := .nil

/-- Two couriers and one operation, on an ordered network that delays by one to nine milliseconds
and duplicates everything. -/
def courierPlan : PlanData :=
  ⟨2, some ⟨⟨1, 10⟩, .never, .always, true⟩, none, 1, some (.new [.new ⟨0⟩ .nil] .swarm)⟩

/-- The messages of the couriers are kept. -/
theorem courier_messagesKept :
    ∃ run, runDeterministic 8 courierPlan none none (some courierCodec) ⟨0⟩ = .ok (.ok run) ∧
      ∃ e : Execution courier courierPlan none (some courierCodec) ⟨0⟩, e.result = run ∧
        MessagesKept e := by
  obtain ⟨run, hrun⟩ := exists_run_of_isSome (N := courier)
    (x := runDeterministic 8 courierPlan none none (some courierCodec) ⟨0⟩) (by decide +kernel)
  exact ⟨run, hrun, runDeterministic_messagesKept hrun⟩

/-- The couriers send four copies of two messages, which are dispatched in order. -/
theorem courier_fifo :
    ∃ run, runDeterministic 8 courierPlan none none (some courierCodec) ⟨0⟩ = .ok (.ok run) ∧
      ∃ e : Execution courier courierPlan none (some courierCodec) ⟨0⟩, e.result = run ∧
        InSendingOrder e.moments := by
  obtain ⟨run, hrun⟩ := exists_run_of_isSome (N := courier)
    (x := runDeterministic 8 courierPlan none none (some courierCodec) ⟨0⟩) (by decide +kernel)
  obtain ⟨e, he, hfifo⟩ := runDeterministic_fifo hrun
  have hordered : e.prepared.model.ordered = true :=
    e.of_compute (f := fun e ↦ e.prepared.model.ordered) 8 (by decide +kernel)
  exact ⟨run, hrun, e, he, hfifo hordered⟩

end Propsim.Simulator
