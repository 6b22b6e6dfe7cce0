import Propsim.Foundation.FifoLink
import Propsim.Simulator.Messages

/-!
# The links of an ordered network

On an ordered network the moments of a run and the queue show each pair of nodes as a link that
keeps the order (`linkOf`): calling `send` or `broadcast` puts a message on it, the queued
deliveries are on their way in the order in which they were sent, and taking one of them hands it to
`on_msg`, or drops it when the recipient is down (`MomentStep.linkSteps`). So what a node receives
from another is at every moment a sublist of what that node has sent to it, and a prefix as long as
nothing is lost and the two stay connected (`runDeterministic_links`).
-/

set_option autoImplicit false
set_option relaxedAutoImplicit false

namespace Propsim.Simulator

open Foundation Interchange Propsim.Core

variable {N : Node} {codec : Option (ClientCodec N)} {a b : NodeId}

/-! ### What is put on a link and handed over -/

/-- The message of a queued delivery on a link. -/
def Scheduled.messageOn (a b : NodeId) (event : Scheduled N) : Option N.Msg :=
  match event.kind with
  | .deliver sender recipient msg => if sender = a ∧ recipient = b then some msg else none
  | _ => none

/-- The message that a moment puts on a link. -/
def Moment.putOn (a b : NodeId) (m : Moment N) : Option N.Msg :=
  match m.act with
  | .send sender recipient msg => if sender = a ∧ recipient = b then some msg else none
  | _ => none

/-- The message from a link that a moment hands to `on_msg`. -/
def Moment.handedFrom (a b : NodeId) (m : Moment N) : Option N.Msg :=
  match m.act with
  | .take event =>
    match (m.core.resolve event).1 with
    | some (.deliver sender recipient msg) =>
      if sender = a ∧ recipient = b then some msg else none
    | _ => none
  | _ => none

/-- A link as the moments so far and the queue show it. -/
def linkOf (a b : NodeId) (log : List (Moment N)) (core : SchedCore N) : Link N.Msg :=
  ⟨log.filterMap (Moment.putOn a b), core.queue.toList.filterMap (Scheduled.messageOn a b),
    log.filterMap (Moment.handedFrom a b)⟩

theorem messageOn_eq_some {event : Scheduled N} {msg : N.Msg} :
    event.messageOn a b = some msg ↔ event.kind = .deliver a b msg := by
  unfold Scheduled.messageOn
  cases event.kind with
  | deliver sender recipient msg' =>
    simp only [Option.ite_none_right_eq_some, Option.some.injEq, EventKind.deliver.injEq, and_assoc]
  | timer => simp
  | clientOp => simp
  | fault => simp

/-- Taking a delivery hands its message over when the recipient is up. -/
theorem handedFrom_take {core : SchedCore N} {event : Scheduled N} :
    Moment.handedFrom a b ⟨core, .take event⟩ =
      if b ∈ core.crashed then none else event.messageOn a b := by
  ext msg
  have hhanded : Moment.handedFrom a b ⟨core, .take event⟩ = some msg ↔
      (core.resolve event).1 = some (.deliver a b msg) := by
    simp only [Moment.handedFrom]
    split
    · rename_i sender recipient msg' hresolve
      simp only [hresolve, Option.ite_none_right_eq_some, Option.some.injEq,
        PoppedEvent.deliver.injEq, and_assoc]
    · rename_i hother
      simp only [reduceCtorEq, false_iff]
      exact fun hresolve ↦ hother a b msg hresolve
  rw [hhanded, resolve_eq_deliver, ← messageOn_eq_some]
  split_ifs with hcrashed
  · simp [hcrashed]
  · simp [hcrashed]

/-- A moment that takes nothing hands nothing over. -/
theorem handedFrom_of_ne_take {m : Moment N} (h : ∀ event, m.act ≠ .take event) :
    m.handedFrom a b = none := by
  unfold Moment.handedFrom
  split
  · rename_i event hact
    exact absurd hact (h event)
  · rfl

/-! ### Sending -/

/-- Queueing an event that is on no link. -/
theorem transit_enqueue_of_none {core : SchedCore N} {fireAt : Duration} {kind : EventKind N}
    (h : Scheduled.messageOn a b ⟨fireAt, core.seq, kind⟩ = none) :
    (core.enqueue fireAt kind).queue.toList.filterMap (Scheduled.messageOn a b) =
      core.queue.toList.filterMap (Scheduled.messageOn a b) :=
  core.queue.filterMap_push_of_none h

/-- Queueing a delivery behind all others on its link. -/
theorem transit_enqueue_last {core : SchedCore N} {fireAt : Duration} {msg : N.Msg}
    (h : ∀ event ∈ core.queue.toList, (event.messageOn a b).isSome = true →
      event.fireAt ≤ fireAt ∧ event.seq < core.seq) :
    (core.enqueue fireAt (.deliver a b msg)).queue.toList.filterMap (Scheduled.messageOn a b) =
      core.queue.toList.filterMap (Scheduled.messageOn a b) ++ [msg] := by
  refine core.queue.filterMap_push_last (messageOn_eq_some.mpr rfl) fun event hevent hon ↦ ?_
  obtain ⟨hfireAt, hseq⟩ := h event hevent hon
  exact key_lt_of_fresh hfireAt hseq

/-- A message that is sent on another link. -/
theorem transit_send_other {core core' : SchedCore N} {sender recipient : NodeId} {msg : N.Msg}
    (hother : ¬(sender = a ∧ recipient = b))
    (h : core.scheduleDelivery sender recipient msg = .ok core') :
    core'.queue.toList.filterMap (Scheduled.messageOn a b) =
      core.queue.toList.filterMap (Scheduled.messageOn a b) := by
  have hnone {fireAt : Duration} {seq : ℕ} :
      Scheduled.messageOn a b (⟨fireAt, seq, .deliver sender recipient msg⟩ : Scheduled N) = none :=
    if_neg hother
  have hspec := delivery core sender recipient msg
  rw [h] at hspec
  generalize hresult : (Except.ok core' : Except Halt (SchedCore N)) = result at hspec
  cases hspec with
  | cut =>
    obtain rfl := Except.ok.inj hresult
    rfl
  | lost =>
    obtain rfl := Except.ok.inj hresult
    rfl
  | overflow => cases hresult
  | sent =>
    obtain rfl := Except.ok.inj hresult
    unfold SchedCore.sent
    split_ifs
    · rw [transit_enqueue_of_none hnone, transit_enqueue_of_none hnone]
      rfl
    · rw [transit_enqueue_of_none hnone]
      rfl

/-- How many copies of a message the network may put on their way: two at most, one at most when it
does not duplicate, and exactly one when it does not lose it either. -/
structure CopyCount (core : SchedCore N) (a b : NodeId) (n : ℕ) : Prop where
  le_two : n ≤ 2
  le_one : core.model.duplicate.value.le .zero = true → n ≤ 1
  eq_one : core.model.duplicate.value.le .zero = true → core.model.loss.value.le .zero = true →
    core.connected a b = true → n = 1

/-- A message that is sent on a link of an ordered network is put behind all that is on its way. -/
theorem exists_transit_send {model : NetworkModel} {log : List (Moment N)}
    {core core' : SchedCore N} {msg : N.Msg} (hcore : Networked model log core)
    (hordered : model.ordered = true) (h : core.scheduleDelivery a b msg = .ok core') :
    ∃ n, CopyCount core a b n ∧
      core'.queue.toList.filterMap (Scheduled.messageOn a b) =
        core.queue.toList.filterMap (Scheduled.messageOn a b) ++ List.replicate n msg := by
  obtain rfl := hcore.model_eq
  have hahead {sampled : Duration} (event : Scheduled N) (hevent : event ∈ core.queue.toList)
      (hon : (event.messageOn a b).isSome = true) :
      event.fireAt ≤ core.arrival a b sampled ∧ event.seq < core.seq := by
    obtain ⟨msg', hmsg⟩ := Option.isSome_iff_exists.mp hon
    obtain ⟨m, hm, hact, hcopy⟩ := hcore.stems event hevent a b msg' (messageOn_eq_some.mp hmsg)
    exact ⟨(hcore.floor hordered m hm a b msg' hact event hcopy).trans
      (lastLink_le_arrival hordered a b sampled), seq_lt_of_queueInv hcore.queue event hevent⟩
  have hspec := delivery core a b msg
  rw [h] at hspec
  generalize hresult : (Except.ok core' : Except Halt (SchedCore N)) = result at hspec
  cases hspec with
  | cut hcut =>
    obtain rfl := Except.ok.inj hresult
    refine ⟨0, ⟨by omega, fun _ ↦ by omega, fun _ _ hconnected ↦ ?_⟩, (List.append_nil _).symm⟩
    cases hcut.symm.trans hconnected
  | lost _ hlost =>
    obtain rfl := Except.ok.inj hresult
    refine ⟨0, ⟨by omega, fun _ ↦ by omega, fun _ hloss _ ↦ ?_⟩, (List.append_nil _).symm⟩
    rw [SchedCore.lossRoll, chance_never _ hloss] at hlost
    cases hlost
  | overflow => cases hresult
  | @sent sampled _ _ _ =>
    obtain rfl := Except.ok.inj hresult
    have hone := @transit_enqueue_last N a b (core.drawn a b (core.arrival a b sampled))
      (core.arrival a b sampled) msg hahead
    cases hdup : core.duplicateRoll.1 with
    | false =>
      refine ⟨1, ⟨by omega, fun _ ↦ le_rfl, fun _ _ _ ↦ rfl⟩, ?_⟩
      rw [SchedCore.sent, hdup]
      exact hone
    | true =>
      refine ⟨2, ⟨le_rfl, fun hnever ↦ ?_, fun hnever _ _ ↦ ?_⟩, ?_⟩
      · rw [SchedCore.duplicateRoll, chance_never _ hnever] at hdup
        cases hdup
      · rw [SchedCore.duplicateRoll, chance_never _ hnever] at hdup
        cases hdup
      · rw [SchedCore.sent, hdup, if_pos rfl, transit_enqueue_last fun event hevent hon ↦ ?_, hone]
        · rw [List.append_assoc]
          rfl
        · rcases PriorityQueue.mem_push.mp hevent with rfl | hevent
          · exact ⟨le_rfl, Nat.lt_succ_self _⟩
          · obtain ⟨hfireAt, hseq⟩ := @hahead sampled event hevent hon
            exact ⟨hfireAt, hseq.trans (Nat.lt_succ_self _)⟩

/-! ### Steps of a link -/

theorem linkOf_append_singleton {log : List (Moment N)} {core : SchedCore N} (m : Moment N) :
    linkOf a b (log ++ [m]) core =
      ⟨log.filterMap (Moment.putOn a b) ++ (m.putOn a b).toList,
        core.queue.toList.filterMap (Scheduled.messageOn a b),
        log.filterMap (Moment.handedFrom a b) ++ (m.handedFrom a b).toList⟩ := by
  have hlast {β : Type} (f : Moment N → Option β) :
      (log ++ [m]).filterMap f = log.filterMap f ++ (f m).toList := by
    rw [List.filterMap_append]
    cases hm : f m with
    | none => rw [List.filterMap_cons_none hm]; rfl
    | some item => rw [List.filterMap_cons_some hm]; rfl
  rw [linkOf, hlast, hlast]

/-- A moment that neither sends nor takes leaves a link as it is, when the queue does. -/
theorem linkOf_of_other {log : List (Moment N)} {core core' : SchedCore N} {m : Moment N}
    (hput : m.putOn a b = none) (hhanded : m.handedFrom a b = none)
    (hqueue : core'.queue.toList.filterMap (Scheduled.messageOn a b) =
      core.queue.toList.filterMap (Scheduled.messageOn a b)) :
    linkOf a b (log ++ [m]) core' = linkOf a b log core := by
  rw [linkOf_append_singleton, hput, hhanded, hqueue, Option.toList_none, List.append_nil,
    List.append_nil]
  rfl

/-- Every step of a run on an ordered network is one of the link, or leaves it as it is. -/
theorem MomentStep.linkSteps {model : NetworkModel} {x y : List (Moment N) × SchedCore N}
    (h : MomentStep x y) (hx : Networked model x.1 x.2) (hordered : model.ordered = true)
    {copies : Set ℕ} {drops : Prop}
    (hcopies : ∀ msg, y.1 = x.1 ++ [⟨x.2, .send a b msg⟩] → ∀ n, CopyCount x.2 a b n → n ∈ copies)
    (hdrops : ∀ event, y.1 = x.1 ++ [⟨x.2, .take event⟩] → b ∈ x.2.crashed → drops) :
    (linkOf a b x.1 x.2).Steps copies drops (linkOf a b y.1 y.2) := by
  cases h with
  | quiet => exact .refl
  | issue log core process index =>
    rw [linkOf, linkOf, SchedCore.scheduleClientOp, transit_enqueue_of_none rfl]
    exact .refl
  | @send log core core' sender recipient msg hsend =>
    by_cases hlink : sender = a ∧ recipient = b
    · obtain ⟨rfl, rfl⟩ := hlink
      obtain ⟨n, hcount, htransit⟩ := exists_transit_send hx hordered hsend
      have hput : Moment.putOn sender recipient (⟨core, .send sender recipient msg⟩ : Moment N) =
          some msg := if_pos ⟨rfl, rfl⟩
      rw [linkOf_append_singleton, htransit, hput, handedFrom_of_ne_take (by simp),
        Option.toList_none, List.append_nil]
      exact .single (.put (linkOf sender recipient log core) msg (hcopies msg rfl n hcount))
    · have hput : Moment.putOn a b (⟨core, .send sender recipient msg⟩ : Moment N) = none :=
        if_neg hlink
      rw [linkOf_of_other hput (handedFrom_of_ne_take (by simp)) (transit_send_other hlink hsend)]
      exact .refl
  | @setTimer log core core' node timer after hset =>
    obtain ⟨fireAt, -, rfl⟩ := armTimer_eq_ok hset
    rw [linkOf_of_other rfl (handedFrom_of_ne_take (by simp)) (transit_enqueue_of_none rfl)]
    exact .refl
  | cancelTimer =>
    rw [linkOf_of_other rfl (handedFrom_of_ne_take (by simp)) rfl]
    exact .refl
  | @take log core core' event queue popped hpop hbelow hresolve =>
    have hlist := PriorityQueue.pop_eq_some_iff.mp hpop
    have hqueue : core'.queue = queue := (sameQueue_resolve hresolve).queue_eq
    rw [linkOf_append_singleton, hqueue, handedFrom_take]
    change Link.Steps copies drops _ ⟨_ ++ [], _, _⟩
    rw [List.append_nil]
    cases hon : event.messageOn a b with
    | none =>
      have htransit : (linkOf a b log core).transit =
          queue.toList.filterMap (Scheduled.messageOn a b) := by
        change core.queue.toList.filterMap (Scheduled.messageOn a b) = _
        rw [hlist, List.filterMap_cons_none hon]
      rw [← htransit, ite_self, Option.toList_none, List.append_nil]
      exact .refl
    | some msg =>
      have htransit : (linkOf a b log core).transit =
          msg :: queue.toList.filterMap (Scheduled.messageOn a b) := by
        change core.queue.toList.filterMap (Scheduled.messageOn a b) = _
        rw [hlist, List.filterMap_cons_some hon]
      by_cases hcrashed : b ∈ core.crashed
      · rw [if_pos hcrashed, Option.toList_none, List.append_nil]
        exact .single (.drop htransit (hdrops event rfl hcrashed))
      · rw [if_neg hcrashed]
        exact .single (.hand htransit)

/-! ### Links of an execution -/

section Executions

variable {data : PlanData} {workload : Option Strategy} {seed : Seed}

/-- The moments of a run show each link of an ordered network as one that keeps the order. -/
theorem MomentSteps.linkSteps {core₀ core : SchedCore N} {log : List (Moment N)}
    (h : MomentSteps ([], core₀) (log, core)) (h₀ : Networked core₀.model [] core₀)
    (hordered : core₀.model.ordered = true) {copies : Set ℕ} {drops : Prop}
    (hcopies : ∀ m ∈ log, ∀ n, m.core.model = core₀.model → CopyCount m.core a b n → n ∈ copies)
    (hdrops : ∀ m ∈ log, b ∈ m.core.crashed → drops) :
    Link.fresh.Steps copies drops (linkOf a b log core) := by
  have hall : Networked core₀.model log core ∧
      ((∀ m ∈ log, ∀ n, m.core.model = core₀.model → CopyCount m.core a b n → n ∈ copies) →
        (∀ m ∈ log, b ∈ m.core.crashed → drops) →
          Link.fresh.Steps copies drops (linkOf a b log core)) := by
    refine h.invariant (P := fun log core ↦ Networked core₀.model log core ∧
      ((∀ m ∈ log, ∀ n, m.core.model = core₀.model → CopyCount m.core a b n → n ∈ copies) →
        (∀ m ∈ log, b ∈ m.core.crashed → drops) →
          Link.fresh.Steps copies drops (linkOf a b log core)))
      (fun x y hstep hx ↦ ⟨hstep.networked hx.1, fun hcopies hdrops ↦ ?_⟩) ⟨h₀, fun _ _ ↦ ?_⟩
    · have hbefore (m : Moment N) (hm : m ∈ x.1) : m ∈ y.1 := by
        rcases hstep.log_eq with hlog | ⟨last, -, hlog, -⟩
        · rwa [hlog]
        · rw [hlog]
          exact List.mem_append_left _ hm
      refine (hx.2 (fun m hm ↦ hcopies m (hbefore m hm))
        fun m hm ↦ hdrops m (hbefore m hm)).trans
        (hstep.linkSteps hx.1 hordered (fun msg hlog n hcount ↦ ?_) fun event hlog hcrashed ↦ ?_)
      · exact hcopies ⟨x.2, .send a b msg⟩ (by rw [hlog]; simp) n hx.1.model_eq hcount
      · exact hdrops ⟨x.2, .take event⟩ (by rw [hlog]; simp) hcrashed
    · have hempty : core₀.queue.toList.filterMap (Scheduled.messageOn a b) = [] := by
        refine List.filterMap_eq_nil_iff.mpr fun event hevent ↦ ?_
        rw [Option.eq_none_iff_forall_ne_some]
        intro msg hmsg
        obtain ⟨m, hm, -⟩ := h₀.stems event hevent a b msg (messageOn_eq_some.mp hmsg)
        cases hm
      rw [linkOf, hempty]
      exact .refl
  exact hall.2 hcopies hdrops

/-- In every run on an ordered network, at every moment and for every two nodes: what the first has
handed to `on_msg` of the second is a sublist of what it has sent to it, with each message doubled,
a sublist of what it has sent to it when the network does not duplicate, and a prefix of it when the
network does not lose either and the two have been connected at all moments so far. -/
theorem runDeterministic_links {fuel : ℕ} {nodeDef : Option NodeDef} {run : TypedRun N}
    (h : runDeterministic fuel data nodeDef workload codec seed = .ok (.ok run)) :
    ∃ e : Execution N data workload codec seed, e.result = run ∧
      (e.prepared.model.ordered = true → ∀ (a b : NodeId) (k : ℕ),
        let sent := (e.moments.take k).filterMap (Moment.putOn a b)
        let handed := (e.moments.take k).filterMap (Moment.handedFrom a b)
        handed.Sublist (sent.flatMap (List.replicate 2)) ∧
        (e.prepared.model.duplicate.value.le .zero = true → handed.Sublist sent ∧
          (e.prepared.model.loss.value.le .zero = true →
            (∀ m ∈ e.moments.take k, m.core.connected a b = true) → handed <+: sent))) := by
  obtain ⟨e, he⟩ := exists_execution h
  refine ⟨e, he, fun hordered a b k ↦ ?_⟩
  obtain ⟨core, hsteps⟩ : ∃ core, MomentSteps ([], e.prepared) (e.moments.take k, core) := by
    rcases lt_or_ge k e.moments.length with hlt | hge
    · exact ⟨_, (e.moments_steps.through (List.getElem?_eq_getElem hlt)).1⟩
    · rw [List.take_of_length_le hge]
      exact ⟨_, e.moments_steps⟩
  have hlink {copies : Set ℕ} {drops : Prop} := @MomentSteps.linkSteps N a b _ _ _ hsteps
    (networked_prepared e.prepare_eq) hordered copies drops
  refine ⟨?_, fun hdup ↦ ⟨?_, fun hloss hconnected ↦ ?_⟩⟩
  · have hlossy := @hlink {n | n ≤ 2} True (fun m _ n _ hcount ↦ hcount.le_two)
      fun _ _ _ ↦ trivial
    exact hlossy.sublist fun n hn ↦ hn
  · have honce := @hlink {n | n ≤ 1} True (fun m _ n hmodel hcount ↦ hcount.le_one (hmodel ▸ hdup))
      fun _ _ _ ↦ trivial
    have hsublist := honce.sublist fun n hn ↦ hn
    have hcopy : (List.replicate 1 : N.Msg → List N.Msg) = fun msg ↦ [msg] := rfl
    rwa [hcopy, List.flatMap_singleton'] at hsublist
  · have hreliable := @hlink {1} False
      (fun m hm n hmodel hcount ↦ hcount.eq_one (hmodel ▸ hdup) (hmodel ▸ hloss) (hconnected m hm))
      fun m hm hcrashed ↦ (connected_iff.mp (hconnected m hm)).2.1 hcrashed
    exact hreliable.prefix_sent

end Executions

/-- Two couriers on an ordered network that delays by one to nine milliseconds. -/
def reliablePlan : PlanData :=
  ⟨2, some ⟨⟨1, 10⟩, .never, .never, true⟩, none, 1, some (.new [.new ⟨0⟩ .nil] .swarm)⟩

/-- The second courier receives a prefix of what the first has sent to it: both messages. -/
theorem reliablePlan_links :
    ∃ run, runDeterministic 8 reliablePlan none none (some courierCodec) ⟨0⟩ = .ok (.ok run) ∧
      ∃ e : Execution courier reliablePlan none (some courierCodec) ⟨0⟩, e.result = run ∧
        e.moments.filterMap (Moment.handedFrom ⟨0⟩ ⟨1⟩) = [true, false] ∧
        e.moments.filterMap (Moment.handedFrom ⟨0⟩ ⟨1⟩) <+:
          e.moments.filterMap (Moment.putOn ⟨0⟩ ⟨1⟩) := by
  obtain ⟨run, hrun⟩ := exists_run_of_isSome (N := courier)
    (x := runDeterministic 8 reliablePlan none none (some courierCodec) ⟨0⟩) (by decide +kernel)
  obtain ⟨e, he, hlinks⟩ := runDeterministic_links hrun
  have hmodel : e.prepared.model = ⟨⟨1, 10⟩, .never, .never, true⟩ :=
    e.of_compute (f := fun e ↦ e.prepared.model) 8 (by decide +kernel)
  have hconnected : e.moments.all (fun m ↦ m.core.connected ⟨0⟩ ⟨1⟩) = true :=
    e.of_compute (f := fun e ↦ e.moments.all fun m ↦ m.core.connected ⟨0⟩ ⟨1⟩) 8
      (by decide +kernel)
  rw [hmodel] at hlinks
  have hkept := ((hlinks rfl ⟨0⟩ ⟨1⟩ e.moments.length).2 (by decide +kernel)).2 (by decide +kernel)
  rw [List.take_length] at hkept
  have hboth : e.moments.filterMap (Moment.handedFrom ⟨0⟩ ⟨1⟩) = [true, false] :=
    e.of_compute (f := fun e ↦ (e.moments.filterMap (Moment.handedFrom ⟨0⟩ ⟨1⟩) : List Bool)) 8
      (by decide +kernel)
  exact ⟨run, hrun, e, he, hboth, hkept (List.all_eq_true.mp hconnected)⟩

end Propsim.Simulator
