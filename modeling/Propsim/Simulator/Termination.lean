import Mathlib.Data.Multiset.DershowitzManna
import Propsim.Simulator.Overflow

/-!
# Whether a run ends

The loop ends when every event that a turn queues is later than the event that the turn takes: the
remaining times up to the horizon, as a multiset, then get smaller with every turn
(`Turn.remaining_lt`). Timers of positive spans and the pump only queue later events, and so does a
network that delays what it delivers (`DeliversLater`). On every other network there is a node that
sends itself messages for ever at one instant (`looper`), so that the horizon bounds all runs
exactly on the networks that deliver later (`runs_end_iff`).
-/

set_option autoImplicit false
set_option relaxedAutoImplicit false

namespace Propsim.Simulator

open Foundation Interchange Propsim.Core

variable {N : Node} {codec : Option (ClientCodec N)} {ops : List FrozenOp}

/-- Whatever the state of the generator, the network delays a message that it does not lose. -/
def DeliversLater (model : NetworkModel) : Prop :=
  ∀ rng : SimRng, (rng.chance model.loss.value).1 = false →
    0 < ((rng.chance model.loss.value).2.rangeU64 model.delayMs.start
      (max model.delayMs.stop model.delayMs.start)).1

/-- The callbacks of a node arm timers for positive spans only. -/
structure ArmsLater (N : Node) : Prop where
  onStart : ∀ me now node, (N.onStart node).Only me now (fun _ ↦ True) (Duration.zero < ·)
  onMsg : ∀ me now node sender msg,
    (N.onMsg node sender msg).Only me now (fun _ ↦ True) (Duration.zero < ·)
  onTimer : ∀ me now node timer,
    (N.onTimer node timer).Only me now (fun _ ↦ True) (Duration.zero < ·)
  onClientOp : ∀ me now node op token,
    (N.onClientOp node op token).Only me now (fun _ ↦ True) (Duration.zero < ·)

theorem ArmsLater.keepsTo (h : ArmsLater N) : KeepsTo N (fun _ ↦ True) (Duration.zero < ·) :=
  ⟨h.onStart, h.onMsg, h.onTimer, h.onClientOp⟩

/-- A network whose least delay is positive delivers later. -/
theorem deliversLater_of_start_pos {model : NetworkModel} (h : 0 < model.delayMs.start) :
    DeliversLater model := by
  intro rng _
  by_cases hrange : model.delayMs.start < max model.delayMs.stop model.delayMs.start
  · exact UInt64.lt_of_lt_of_le h (SimRng.rangeU64_mem _ hrange).1
  · rw [SimRng.rangeU64_empty _ (UInt64.not_lt.mp hrange)]
    exact h

/-! ### Later events -/

/-- The core is at a time and runs on a network, and has only queued later events since its queue
was `base`. -/
structure Later (now : Duration) (model : NetworkModel) (base : List (Scheduled N))
    (core : SchedCore N) : Prop where
  now_eq : core.now = now
  model_eq : core.model = model
  added : ∃ added : List (Scheduled N), core.queue.toList.Perm (added ++ base) ∧
    ∀ event ∈ added, now < event.fireAt

section Effects

variable {now : Duration} {model : NetworkModel} {base : List (Scheduled N)} {core : SchedCore N}

theorem Later.enqueue (h : Later now model base core) {fireAt : Duration} (hlater : now < fireAt)
    (kind : EventKind N) : Later now model base (core.enqueue fireAt kind) := by
  obtain ⟨added, hperm, hadded⟩ := h.added
  refine ⟨h.now_eq, h.model_eq, ⟨fireAt, core.seq, kind⟩ :: added, ?_,
    List.forall_mem_cons.mpr ⟨hlater, hadded⟩⟩
  exact (PriorityQueue.perm_push _ _).trans (hperm.cons _)

theorem Later.closeOp (h : Later now model base core) (token : OpToken) (kind : OpKind)
    (value : Value) : Later now model base (core.closeOp token kind value) := by
  have hsame := sameQueue_closeOp core token kind value
  refine ⟨hsame.now_eq.trans h.now_eq, ?_, hsame.queue_eq ▸ h.added⟩
  obtain ⟨history, pendingOps, hclose⟩ := closeOp_frame core token kind value
  rw [hclose]
  exact h.model_eq

/-- A sum with a positive duration is later. -/
theorem lt_of_addDuration {a b c : Duration} (hsum : addDuration a b = .ok c)
    (hpos : Duration.zero < b) : a < c := by
  have hpos' : 0 < b.nanos := Duration.lt_iff.mp hpos
  rw [Duration.lt_iff, nanos_of_addDuration hsum]
  omega

theorem fromMillis_pos {millis : UInt64} (h : 0 < millis) :
    Duration.zero < .fromMillis millis := by
  rw [Duration.lt_iff, Duration.nanos_fromMillis]
  exact Nat.mul_pos (UInt64.lt_iff_toNat_lt.mp h) (by decide)

/-- A message arrives no earlier than it was sampled to. -/
theorem le_arrival (core : SchedCore N) (sender recipient : NodeId) (sampled : Duration) :
    sampled ≤ core.arrival sender recipient sampled := by
  unfold SchedCore.arrival
  split_ifs
  · exact le_max_left _ _
  · exact le_rfl

/-- Sending a message on a network that delivers later. -/
theorem Later.scheduleDelivery (h : Later now model base core) (hmodel : DeliversLater model)
    (sender recipient : NodeId) (msg : N.Msg) :
    Ensures (Later now model base) (· ≠ .outOfFuel)
      (core.scheduleDelivery sender recipient msg) := by
  have hspec := delivery core sender recipient msg
  generalize core.scheduleDelivery sender recipient msg = result at hspec ⊢
  cases hspec with
  | cut => exact h
  | lost => exact ⟨h.now_eq, h.model_eq, h.added⟩
  | overflow _ _ hsum =>
    rw [addDuration_error hsum]
    exact Halt.noConfusion
  | @sent sampled _ hlost hsum =>
    obtain ⟨rfl, rfl, hadded⟩ := h
    have hlater : core.now < core.arrival sender recipient sampled :=
      (lt_of_addDuration hsum (fromMillis_pos (hmodel core.rng hlost))).trans_le
        (le_arrival core sender recipient sampled)
    have hdrawn : Later core.now core.model base
        (core.drawn sender recipient (core.arrival sender recipient sampled)) :=
      ⟨rfl, rfl, hadded⟩
    unfold Ensures SchedCore.sent
    split_ifs
    · exact (hdrawn.enqueue hlater _).enqueue hlater _
    · exact hdrawn.enqueue hlater _

/-- The effects of a node that arms timers for positive spans. -/
theorem effectRule_later (hmodel : DeliversLater model) (me : NodeId) :
    EffectRule (N := N) me (Moment.Keeps (fun _ ↦ True) (Duration.zero < ·)) (Later now model base)
      (· ≠ .outOfFuel) where
  quiet _ _ _ _ h := ⟨h.now_eq, h.model_eq, h.added⟩
  close _ token kind value h := h.closeOp token kind value
  deliver recipient msg _ _ h := h.scheduleDelivery hmodel me recipient msg
  arm timer after core hkeeps h := by
    refine ensures_of_eq (fun core' hcore' ↦ ?_) fun halt hhalt ↦ ?_
    · obtain ⟨fireAt, hsum, rfl⟩ := armTimer_eq_ok hcore'
      have hcancelled : Later now model base (core.cancelTimer me timer) :=
        ⟨h.now_eq, h.model_eq, h.added⟩
      have hpos := hkeeps.spans me timer after rfl
      exact hcancelled.enqueue (h.now_eq ▸ lt_of_addDuration hsum hpos) _
    · obtain rfl := armTimer_error hhalt
      exact Halt.noConfusion

/-- The pump schedules a millisecond later. -/
theorem Later.pumpProcess {state : RunState N} (h : Later now model base state.core) (p : ℕ) :
    Ensures (fun next ↦ Later now model base next.core) (· ≠ .outOfFuel) (pumpProcess state p) := by
  unfold Simulator.pumpProcess
  split_ifs
  · exact h
  split
  · exact h
  split
  · rename_i hsum
    rw [addDuration_error hsum]
    exact Halt.noConfusion
  · rename_i fireAt hsum
    exact h.enqueue (h.now_eq ▸ lt_of_addDuration hsum (fromMillis_pos (by decide))) _

end Effects

/-! ### The remaining times -/

/-- The times that the queued events leave up to the horizon. -/
def remaining (core : SchedCore N) : Multiset ℕ :=
  Multiset.map (fun event : Scheduled N ↦ core.horizon.nanos - event.fireAt.nanos) core.queue.toList

/-- What a turn that fires queues is later. -/
theorem Fires.handle_later (codec : Option (ClientCodec N)) (ops : List FrozenOp)
    (harms : ArmsLater N) {state : RunState N} {event : Scheduled N} {popped : PoppedEvent N}
    {core : SchedCore N} (hmodel : DeliversLater state.core.model)
    (h : Fires state event popped core) :
    Ensures (fun next ↦ Later event.fireAt state.core.model core.queue.toList next.core)
      (· ≠ .outOfFuel) (handle codec ops { state with core := core } popped) := by
  cases h with
  | intro hpop hbelow hresolve =>
    have hcore : Later event.fireAt state.core.model core.queue.toList core :=
      ⟨(sameQueue_resolve hresolve).now_eq, (resolve_frame hresolve).1, [], .refl _,
        fun _ h ↦ absurd h List.not_mem_nil⟩
    refine handle_ensures ?_ (fun next p hnext ↦ hnext.pumpProcess p) fun next hnext ↦ hnext
    exact (dispatch_ensures (fun me _ ↦ effectRule_later hmodel me)
      (fun core' _ _ _ hcore' ↦ ⟨hcore'.now_eq, hcore'.model_eq, hcore'.added⟩)
      (fun core' token kind value hcore' ↦ hcore'.closeOp token kind value)
      (Or.inr Halt.noConfusion) (fun _ hm ↦ harms.keepsTo.dispatch (fun _ _ ↦ trivial) hm)
      hcore).mono fun r hr ↦ hr.1

/-- The remaining times get smaller with every turn: the one of the event that is taken gives way to
those of later events. -/
theorem Turn.remaining_lt (harms : ArmsLater N) {state next : RunState N} {event : Scheduled N}
    (hmodel : DeliversLater state.core.model) (h : Turn codec ops state event next) :
    (remaining next.core).IsDershowitzMannaLT (remaining state.core) := by
  obtain ⟨queue, hpop, hbelow⟩ := h.pop_eq
  have hnext : Later event.fireAt state.core.model queue.toList next.core := by
    cases h with
    | skip hpop' _ hresolve =>
      obtain ⟨-, rfl⟩ := Prod.mk.inj (Option.some.inj (hpop.symm.trans hpop'))
      rw [resolve_eq_none hresolve]
      exact ⟨rfl, rfl, [], .refl _, fun _ h ↦ absurd h List.not_mem_nil⟩
    | fire hpop' _ hresolve hhandle =>
      obtain ⟨-, rfl⟩ := Prod.mk.inj (Option.some.inj (hpop.symm.trans hpop'))
      have hlater := Fires.handle_later codec ops harms hmodel (.intro hpop hbelow hresolve)
      rw [hhandle, (sameQueue_resolve hresolve).queue_eq] at hlater
      exact hlater
  obtain ⟨added, hperm, hadded⟩ := hnext.added
  let left (e : Scheduled N) : ℕ := state.core.horizon.nanos - e.fireAt.nanos
  refine ⟨Multiset.map left queue.toList, Multiset.map left added, {left event}, ?_, ?_, ?_, ?_⟩
  · exact Multiset.singleton_ne_zero _
  · rw [← Multiset.map_add, remaining, h.horizon_eq]
    exact congrArg _ (Multiset.coe_eq_coe.mpr (hperm.trans List.perm_append_comm))
  · rw [remaining, PriorityQueue.pop_eq_some_iff.mp hpop, ← Multiset.cons_coe, Multiset.map_cons,
      ← Multiset.singleton_add, add_comm]
  · intro time htime
    obtain ⟨later, hlater, rfl⟩ := Multiset.mem_map.mp htime
    refine ⟨left event, Multiset.mem_singleton_self _, ?_⟩
    have hbelow' := Duration.lt_iff.mp hbelow
    have hlt := Duration.lt_iff.mp (hadded later hlater)
    change _ - _ < _ - _
    omega

/-! ### Runs that end -/

/-- The loop reaches only states with less remaining time. -/
theorem Reaches.remaining_le (harms : ArmsLater N) {state next : RunState N}
    (hmodel : DeliversLater state.core.model) (h : Reaches codec ops state next) :
    next = state ∨ (remaining next.core).IsDershowitzMannaLT (remaining state.core) := by
  induction h with
  | refl => exact Or.inl rfl
  | tail hreach hturn ih =>
    obtain ⟨event, hturn⟩ := hturn
    have hlt := hturn.remaining_lt harms ((Reaches.keeps hreach).1 ▸ hmodel)
    refine Or.inr ?_
    rcases ih with rfl | hrest
    · exact hlt
    · exact hlt.trans hrest

/-- The loop ends on a network that delivers later, by well-founded induction on the remaining
times. -/
theorem exists_fuel (codec : Option (ClientCodec N)) (ops : List FrozenOp) (harms : ArmsLater N)
    (state : RunState N) (hmodel : DeliversLater state.core.model) :
    ∃ fuel, mainLoop codec ops fuel state ≠ .error .outOfFuel := by
  have hwf : WellFounded (Multiset.IsDershowitzMannaLT : Multiset ℕ → Multiset ℕ → Prop) :=
    Multiset.wellFounded_isDershowitzMannaLT
  induction hremaining : remaining state.core using hwf.induction generalizing state with
  | h times ih =>
    subst hremaining
    cases hpop : state.core.pop with
    | mk popped core =>
      cases popped with
      | none => exact ⟨1, by simp [mainLoop, hpop]⟩
      | some popped =>
        obtain ⟨state', event, hreach, hfires, heq⟩ :=
          @exists_fires N codec ops state _ state popped core .refl hpop
        have hmodel' : DeliversLater state'.core.model := (Reaches.keeps hreach).1 ▸ hmodel
        have hlater := Fires.handle_later codec ops harms hmodel' hfires
        rw [heq] at hlater
        cases hhandle : handle codec ops { state with core := core } popped with
        | error halt =>
          refine ⟨1, ?_⟩
          simp only [mainLoop, hpop, hhandle]
          exact fun herror ↦ hlater.of_error hhandle (Except.error.inj herror)
        | ok next =>
          have hturn : Turn codec ops state' event next := hfires.turn (heq ▸ hhandle)
          have hlt : (remaining next.core).IsDershowitzMannaLT (remaining state.core) := by
            rcases Reaches.remaining_le harms hmodel hreach with rfl | hle
            · exact hturn.remaining_lt harms hmodel
            · exact (hturn.remaining_lt harms hmodel').trans hle
          obtain ⟨fuel, hfuel⟩ := ih _ hlt next (hturn.model_eq ▸ hmodel') rfl
          refine ⟨fuel + 1, ?_⟩
          simp only [mainLoop, hpop, hhandle]
          exact hfuel

section Runs

variable {data : PlanData} {workload : Option Strategy} {seed : Seed}

/-- A run ends on a network that delivers later. -/
theorem runDeterministic_ends (codec : Option (ClientCodec N)) (harms : ArmsLater N)
    (hmodel : ∀ prepared, prepareCore N data seed = .ok prepared → DeliversLater prepared.model)
    (nodeDef : Option NodeDef) :
    ∃ fuel, runDeterministic fuel data nodeDef workload codec seed ≠ .error .outOfFuel := by
  by_cases hnode : nodeDef = some .spawnEach
  · subst hnode
    exact ⟨0, fun h ↦ by cases h⟩
  cases hprepared : prepareCore N data seed with
  | error halt =>
    refine ⟨0, ?_⟩
    rw [runDeterministic_eq hnode, hprepared, prepareCore_error hprepared]
    exact fun herror ↦ by cases herror
  | ok prepared =>
    have hlater := hmodel prepared hprepared
    have hstart : Ensures
        (fun state : RunState N ↦
          Later prepared.now prepared.model prepared.queue.toList state.core)
        (· ≠ .outOfFuel) (startRun codec (resolveOps data workload seed) prepared) :=
      startRun_ensures (fun id _ ↦ effectRule_later hlater ⟨.ofNat id⟩)
        (fun _ hm ↦ harms.keepsTo.start (fun _ _ ↦ trivial) hm)
        ⟨rfl, rfl, [], .refl _, fun _ h ↦ absurd h List.not_mem_nil⟩
        (fun _ _ hcore _ ↦ hcore) fun _ p hstate ↦ hstate.pumpProcess p
    cases hstarted : startRun codec (resolveOps data workload seed) prepared with
    | error halt =>
      refine ⟨0, ?_⟩
      rw [runDeterministic_eq hnode, hprepared]
      change (startRun codec _ prepared >>= _) ≠ _
      rw [hstarted]
      exact fun herror ↦ hstart.of_error hstarted (Except.error.inj herror)
    | ok started =>
      rw [hstarted] at hstart
      obtain ⟨fuel, hfuel⟩ := exists_fuel codec (resolveOps data workload seed) harms started
        (hstart.model_eq ▸ hlater)
      refine ⟨fuel, ?_⟩
      rw [runDeterministic_eq hnode, hprepared]
      change (startRun codec _ prepared >>= _) ≠ _
      rw [hstarted]
      change (mainLoop codec _ fuel started >>= _) ≠ _
      intro herror
      rcases except_bind_eq_error.mp herror with herror | ⟨_, -, hpure⟩
      · exact hfuel herror
      · exact except_pure_ne_error hpure

end Runs

/-! ### A node that keeps the loop busy -/

/-- A callback that first draws a number of times. -/
def drawing {Msg Timer Response α : Type} (effects : Effects Msg Timer Response α) :
    ℕ → Effects Msg Timer Response α
  | 0 => effects
  | draws + 1 => .nextU64 fun _ ↦ drawing effects draws

/-- A node that sends itself a message when it starts and, after a number of draws, for every
message that it gets. -/
def looper (draws : ℕ) : Node where
  State := Unit
  Msg := Unit
  Timer := Unit
  Op := Unit
  Response := Unit
  default := ()
  debug _ := "()"
  onStart _ := .send ⟨0⟩ () (.done ())
  onMsg _ _ _ := drawing (.send ⟨0⟩ () (.done ())) draws
  onTimer _ _ := .done ()
  onClientOp _ _ _ := .done ((), .done ())

variable {draws : ℕ}

/-- Drawing neither sends nor arms a timer. -/
theorem only_drawing {Msg Timer Response α : Type} {me : NodeId} {now : Duration}
    {sends : NodeId → Prop} {timers : Duration → Prop} {effects : Effects Msg Timer Response α}
    (h : effects.Only me now sends timers) (draws : ℕ) :
    (drawing effects draws).Only me now sends timers := by
  induction draws with
  | zero => exact h
  | succ draws ih => exact fun _ ↦ ih

theorem armsLater_looper (draws : ℕ) : ArmsLater (looper draws) where
  onStart _ _ _ := ⟨trivial, trivial⟩
  onMsg _ _ _ _ _ := by
    apply only_drawing
    exact ⟨trivial, trivial⟩
  onTimer _ _ _ _ := trivial
  onClientOp _ _ _ _ _ := trivial

theorem run_drawing {α : Type} (me : NodeId) (effects : Effects N.Msg N.Timer N.Response α)
    (core : SchedCore N) :
    (drawing effects draws).run (harnessCtx codec me) core =
      effects.run (harnessCtx codec me) { core with rng := core.rng.after draws } := by
  induction draws generalizing core with
  | zero => rw [SimRng.after_zero, drawing]
  | succ draws ih =>
    have hnext : (harnessCtx codec me).nextU64 core =
        (core.rng.next.1, { core with rng := core.rng.after 1 }) := by
      rw [← SimRng.next_eq_after]
      rfl
    rw [drawing, Effects.run, ih, hnext, SimRng.after_after, Nat.add_comm]

/-- The generator after the draws of a message that is sent. -/
def sentRng (model : NetworkModel) (rng : SimRng) : SimRng :=
  (((rng.chance model.loss.value).2.rangeU64 model.delayMs.start
    (max model.delayMs.stop model.delayMs.start)).2.chance model.duplicate.value).2

theorem sentRng_eq_after (model : NetworkModel) (rng : SimRng) :
    ∃ draws, sentRng model rng = rng.after draws := by
  obtain ⟨a, ha⟩ := rng.chance_eq_after model.loss.value
  obtain ⟨b, hb⟩ := (rng.after a).rangeU64_eq_after model.delayMs.start
    (max model.delayMs.stop model.delayMs.start)
  obtain ⟨c, hc⟩ := ((rng.after a).after b).chance_eq_after model.duplicate.value
  refine ⟨a + b + c, ?_⟩
  rw [sentRng, ha, hb, hc, SimRng.after_after, SimRng.after_after, Nat.add_assoc]

/-- A message that is sent from a state of the generator is neither lost nor delayed, and a number
of draws after it brings the generator back to the state. -/
structure ComesBack (model : NetworkModel) (rng : SimRng) (draws : ℕ) : Prop where
  notLost : (rng.chance model.loss.value).1 = false
  undelayed : ((rng.chance model.loss.value).2.rangeU64 model.delayMs.start
    (max model.delayMs.stop model.delayMs.start)).1 = 0
  back : (sentRng model rng).after draws = rng

/-- A network that does not deliver later comes back from some state of the generator. -/
theorem exists_comesBack {model : NetworkModel} (h : ¬DeliversLater model) :
    ∃ rng draws, ComesBack model rng draws := by
  obtain ⟨rng, hrng⟩ := not_forall.mp h
  obtain ⟨hlost, hdelay⟩ := Classical.not_imp.mp hrng
  obtain ⟨sent, hsent⟩ := sentRng_eq_after model rng
  -- Together with the draws of the message these are a multiple of `2 ^ 64`.
  refine ⟨rng, sent * (2 ^ 64 - 1), hlost, ?_, ?_⟩
  · exact UInt64.le_zero_iff.mp (UInt64.not_lt.mp hdelay)
  · have hcycle : sent + sent * (2 ^ 64 - 1) = sent * 2 ^ 64 := by omega
    rw [hsent, SimRng.after_after, hcycle, SimRng.after_cycle]

/-- The core is at the start of the run, and all that is queued are messages of the first node to
itself that are due at once. -/
structure SpinsAt (model : NetworkModel) (rng : SimRng) (core : SchedCore (looper draws)) :
    Prop where
  model_eq : core.model = model
  rng_eq : core.rng = rng
  horizon_pos : Duration.zero < core.horizon
  crashed_eq : core.crashed = []
  partitions_eq : core.partitions = []
  lastLink_eq : core.lastLink (0, 0) = .zero
  queued : ∀ event ∈ core.queue.toList,
    event.fireAt = .zero ∧ event.kind = .deliver ⟨0⟩ ⟨0⟩ ()

section Spin

variable {model : NetworkModel} {rng : SimRng} {core : SchedCore (looper draws)}

theorem SpinsAt.enqueue (h : SpinsAt model rng core) :
    SpinsAt model rng (core.enqueue .zero (.deliver ⟨0⟩ ⟨0⟩ ())) where
  model_eq := h.model_eq
  rng_eq := h.rng_eq
  horizon_pos := h.horizon_pos
  crashed_eq := h.crashed_eq
  partitions_eq := h.partitions_eq
  lastLink_eq := h.lastLink_eq
  queued event hevent := by
    rcases PriorityQueue.mem_push.mp hevent with rfl | hevent
    · exact ⟨rfl, rfl⟩
    · exact h.queued event hevent

/-- A message that is neither lost nor delayed is due at once. -/
theorem SpinsAt.scheduleDelivery (h : SpinsAt model rng core) (hnow : core.now = .zero)
    (hback : ComesBack model rng draws) :
    ∃ core', core.scheduleDelivery ⟨0⟩ ⟨0⟩ () = .ok core' ∧
      SpinsAt model (sentRng model rng) core' ∧ core'.queue.toList ≠ [] := by
  obtain ⟨rfl, rfl, hhorizon, hcrashed, hpartitions, hlink, hqueued⟩ := h
  have hconnected : core.connected ⟨0⟩ ⟨0⟩ = true := by
    simp [SchedCore.connected, hcrashed, hpartitions]
  have hdelay : core.delayDraw.1 = 0 := hback.undelayed
  have hsum : addDuration core.now (.fromMillis core.delayDraw.1) = .ok .zero := by
    rw [hdelay, hnow]
    rfl
  have harrival : core.arrival ⟨0⟩ ⟨0⟩ .zero = .zero := by
    unfold SchedCore.arrival
    rw [hlink, max_self, ite_self]
  have hdrawn : SpinsAt core.model (sentRng core.model core.rng) (core.drawn ⟨0⟩ ⟨0⟩ .zero) := by
    refine ⟨rfl, rfl, hhorizon, hcrashed, hpartitions, ?_, hqueued⟩
    unfold SchedCore.drawn
    split_ifs
    · exact Function.update_self (0, 0) Duration.zero core.lastLink
    · exact hlink
  refine ⟨_, scheduleDelivery_sent hconnected hback.notLost hsum, ?_, ?_⟩
  · rw [harrival]
    unfold SchedCore.sent
    split_ifs
    · exact hdrawn.enqueue.enqueue
    · exact hdrawn.enqueue
  · unfold SchedCore.sent
    split_ifs <;> exact List.ne_nil_of_mem (PriorityQueue.mem_push.mpr (Or.inl rfl))

/-- The state of a run of one node with messages that are due at once, and nothing else to do. -/
structure Spinning (model : NetworkModel) (rng : SimRng) (state : RunState (looper draws)) :
    Prop extends SpinsAt model rng state.core where
  busy : state.core.queue.toList ≠ []
  nodes_eq : state.nodes = [some (looper draws).default]
  drained : ∀ p, state.perProcess p = []

/-- Pumping changes nothing once no operation is left. -/
theorem pumpClientOps_drained {state : RunState N} (h : ∀ p, state.perProcess p = []) :
    pumpClientOps state = .ok state := by
  unfold pumpClientOps
  induction List.range state.core.nodeCount.toNat with
  | nil => rfl
  | cons p processes ih =>
    rw [List.foldlM_cons, InStep.pump_drained (h p)]
    exact ih

theorem handle_drained {state : RunState N} {popped : PoppedEvent N} {core : SchedCore N}
    {nodes : List (Option N.State)} (hdrained : ∀ p, state.perProcess p = [])
    (hdispatch : dispatch codec ops state.core state.nodes popped = .ok (core, nodes)) :
    handle codec ops state popped = .ok (snapshot { state with core := core, nodes := nodes }) := by
  have hpump : pumpClientOps { state with core := core, nodes := nodes } =
      .ok { state with core := core, nodes := nodes } := pumpClientOps_drained hdrained
  refine except_bind_eq_ok.mpr ⟨(core, nodes), hdispatch, ?_⟩
  exact except_bind_eq_ok.mpr ⟨_, hpump, rfl⟩

/-- A callback whose last effect is a message. -/
theorem runCallback_send {core core' : SchedCore N} {nodes : List (Option N.State)}
    {me recipient : NodeId} {node : N.State} {msg : N.Msg}
    {callback : N.State → Effects N.Msg N.Timer N.Response N.State}
    (hslot : nodes[me.id.toNat]? = some (some node))
    (hcallback : callback node = drawing (.send recipient msg (.done node)) draws)
    (hsend : SchedCore.scheduleDelivery { core with rng := core.rng.after draws } me recipient msg =
      .ok core') :
    runCallback codec core nodes me callback = .ok (core', nodes.set me.id.toNat (some node)) := by
  have hrun : (callback node).run (harnessCtx codec me) core = .ok (node, core') := by
    rw [hcallback, run_drawing]
    simp only [Effects.run, harnessCtx, hsend]
  simp only [runCallback, hslot, hrun]

/-- A turn takes a message that is due at once and sends the next one. -/
theorem Spinning.handle {state : RunState (looper draws)}
    (h : Spinning model (sentRng model rng) state)
    (hback : ComesBack model rng draws) :
    ∃ popped core next, state.core.pop = (some popped, core) ∧
      Simulator.handle none [] { state with core := core } popped = .ok next ∧
      Spinning model (sentRng model rng) next := by
  obtain ⟨⟨fireAt, seq, kind⟩, rest, hqueue⟩ := List.exists_cons_of_ne_nil h.busy
  obtain ⟨hfireAt, hkind⟩ := h.queued _ (hqueue ▸ List.mem_cons_self)
  simp only at hfireAt hkind
  subst hfireAt hkind
  have hsorted := state.core.queue.sorted
  rw [hqueue] at hsorted
  let queue : PriorityQueue (Scheduled.key (N := looper draws)) :=
    ⟨rest, (List.pairwise_cons.mp hsorted).2⟩
  have hpop : state.core.queue.pop = some (⟨.zero, seq, .deliver ⟨0⟩ ⟨0⟩ ()⟩, queue) :=
    PriorityQueue.pop_eq_some_iff.mpr hqueue
  let core : SchedCore (looper draws) := { state.core with queue := queue, now := .zero }
  have hresolve : SchedCore.resolve { state.core with queue := queue }
      ⟨.zero, seq, .deliver ⟨0⟩ ⟨0⟩ ()⟩ = (some (.deliver ⟨0⟩ ⟨0⟩ ()), core) :=
    if_pos (h.crashed_eq ▸ List.not_mem_nil)
  have hpopped : state.core.pop = (some (.deliver ⟨0⟩ ⟨0⟩ ()), core) := by
    rw [SchedCore.pop, PriorityQueue.length_of_pop hpop, SchedCore.popLoop_succ hpop,
      if_neg (not_le.mpr h.horizon_pos), hresolve]
  -- The draws of the callback come before its message.
  have hdrawn : SpinsAt model rng { core with rng := core.rng.after draws } := by
    refine ⟨h.model_eq, ?_, h.horizon_pos, h.crashed_eq, h.partitions_eq, h.lastLink_eq, ?_⟩
    · change state.core.rng.after draws = rng
      rw [h.rng_eq, hback.back]
    · exact fun other hother ↦ h.queued other (hqueue ▸ List.mem_cons_of_mem _ hother)
  obtain ⟨sent, hsend, hspins, hbusy⟩ := hdrawn.scheduleDelivery rfl hback
  have hslot : state.nodes[(0 : UInt64).toNat]? = some (some (looper draws).default) := by
    rw [h.nodes_eq]
    rfl
  have hcallback : (looper draws).onMsg (looper draws).default ⟨0⟩ () =
      drawing (.send ⟨0⟩ () (.done (looper draws).default)) draws := rfl
  have hdispatch : dispatch none [] core state.nodes (.deliver ⟨0⟩ ⟨0⟩ ()) =
      .ok (sent, state.nodes.set 0 (some (looper draws).default)) :=
    runCallback_send hslot hcallback hsend
  refine ⟨_, core, _, hpopped, handle_drained h.drained hdispatch, hspins, hbusy, ?_, h.drained⟩
  change state.nodes.set 0 _ = _
  rw [h.nodes_eq]
  rfl

/-- A loop that spins takes more than any fuel. -/
theorem Spinning.mainLoop {state : RunState (looper draws)}
    (h : Spinning model (sentRng model rng) state)
    (hback : ComesBack model rng draws) (fuel : ℕ) :
    Simulator.mainLoop none [] fuel state = .error .outOfFuel := by
  induction fuel generalizing state with
  | zero => rfl
  | succ fuel ih =>
    obtain ⟨popped, core, next, hpop, hhandle, hnext⟩ := h.handle hback
    simp only [Simulator.mainLoop, hpop, hhandle]
    exact ih hnext

/-- The run of one looping node starts to spin. -/
theorem exists_spinning {network : Option NetworkModel} {rng : SimRng}
    (hback : ComesBack (network.getD .orderedReliable) rng draws) :
    ∃ prepared started,
      prepareCore (looper draws) ⟨1, network, none, 1, none⟩ ⟨rng.state⟩ = .ok prepared ∧
      startRun none [] prepared = .ok started ∧
      Spinning (network.getD .orderedReliable) (sentRng (network.getD .orderedReliable) rng)
        started := by
  obtain ⟨horizon, hhorizon, hpos⟩ : ∃ horizon, addDuration (.fromSecs 5) (.fromSecs 10) =
      .ok horizon ∧ Duration.zero < max horizon (.fromSecs 10) := by
    obtain ⟨horizon, hsum⟩ := @exists_addDuration (.fromSecs 5) (.fromSecs 10) (by decide +kernel)
    exact ⟨horizon, hsum, lt_max_of_lt_right (by decide +kernel)⟩
  let prepared : SchedCore (looper draws) :=
    { SchedCore.new rng.state (network.getD .orderedReliable) 1 with
      horizon := max horizon (.fromSecs 10) }
  have hprepared : prepareCore (looper draws) ⟨1, network, none, 1, none⟩ ⟨rng.state⟩ =
      .ok prepared := by
    refine except_bind_eq_ok.mpr ⟨max horizon (.fromSecs 10), ?_, rfl⟩
    exact except_bind_eq_ok.mpr ⟨horizon, hhorizon, rfl⟩
  have hspins : SpinsAt (network.getD .orderedReliable) rng prepared :=
    ⟨rfl, rfl, hpos, rfl, rfl, rfl, fun _ h ↦ absurd h List.not_mem_nil⟩
  obtain ⟨sent, hsend, hsent, hbusy⟩ := hspins.scheduleDelivery rfl hback
  have hslot : [some (looper draws).default][(0 : UInt64).toNat]? =
      some (some (looper draws).default) := rfl
  have hcallback : (looper draws).onStart (looper draws).default =
      drawing (.send ⟨0⟩ () (.done (looper draws).default)) 0 := rfl
  have hstart : dispatchStart none prepared [some (looper draws).default] ⟨0⟩ =
      .ok (sent, [some (looper draws).default]) := by
    refine runCallback_send hslot hcallback ?_
    rw [SimRng.after_zero]
    exact hsend
  refine ⟨prepared, _, hprepared, startRun_eq_ok.mpr ⟨sent, [some (looper draws).default], ?_,
    pumpClientOps_drained fun _ ↦ rfl⟩, hsent, hbusy, rfl, fun _ ↦ rfl⟩
  exact except_bind_eq_ok.mpr ⟨_, hstart, rfl⟩

/-- The run of one looping node takes more than any fuel. -/
theorem looper_outOfFuel {network : Option NetworkModel} {rng : SimRng}
    (hback : ComesBack (network.getD .orderedReliable) rng draws) (fuel : ℕ) :
    @runDeterministic (looper draws) fuel ⟨1, network, none, 1, none⟩ none none none ⟨rng.state⟩ =
      .error .outOfFuel := by
  obtain ⟨prepared, started, hprepared, hstarted, hspinning⟩ := exists_spinning hback
  rw [@runDeterministic_eq _ _ _ none _ _ (by simp), hprepared]
  change (startRun none [] prepared >>= _) = _
  rw [hstarted]
  change (mainLoop none [] fuel started >>= _) = _
  rw [hspinning.mainLoop hback]
  rfl

end Spin

/-- All runs on a network end, of all nodes that arm timers for positive spans only, exactly when
the network delivers later. -/
theorem runs_end_iff (model : NetworkModel) :
    (∀ N : Node, ArmsLater N → ∀ (data : PlanData) (nodeDef : Option NodeDef)
      (workload : Option Strategy) (codec : Option (ClientCodec N)) (seed : Seed),
      (∀ prepared, prepareCore N data seed = .ok prepared → prepared.model = model) →
        ∃ fuel, runDeterministic fuel data nodeDef workload codec seed ≠ .error .outOfFuel) ↔
      DeliversLater model := by
  constructor
  · intro hends
    by_contra hmodel
    obtain ⟨rng, draws, hback⟩ := exists_comesBack hmodel
    have hactive (prepared : SchedCore (looper draws))
        (h : prepareCore (looper draws) ⟨1, some model, none, 1, none⟩ ⟨rng.state⟩ = .ok prepared) :
        prepared.model = model := by
      obtain ⟨horizon, -, heq⟩ := except_bind_eq_ok.mp h
      rw [← Except.ok.inj heq]
      rfl
    obtain ⟨fuel, hfuel⟩ := hends (looper draws) (armsLater_looper draws)
      ⟨1, some model, none, 1, none⟩ none none none ⟨rng.state⟩ hactive
    exact hfuel (@looper_outOfFuel draws (some model) rng hback fuel)
  · intro hmodel N harms data nodeDef workload codec seed hactive
    refine runDeterministic_ends codec harms (fun prepared hprepared ↦ ?_) nodeDef
    rw [hactive prepared hprepared]
    exact hmodel

/-- A node that sends itself a message at its start and for every message keeps the default network
busy at one instant. -/
theorem looper_never_ends :
    ArmsLater (looper 0) ∧ ∀ fuel,
      @runDeterministic (looper 0) fuel ⟨1, none, none, 1, none⟩ none none none ⟨0⟩ =
        .error .outOfFuel := by
  refine ⟨armsLater_looper 0, fun fuel ↦ ?_⟩
  have hback : ComesBack ((none : Option NetworkModel).getD .orderedReliable) ⟨0⟩ 0 :=
    ⟨by decide +kernel, by decide +kernel, by decide +kernel⟩
  exact looper_outOfFuel hback fuel

end Propsim.Simulator
