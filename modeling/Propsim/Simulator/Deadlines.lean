import Propsim.Simulator.FaultEvents
import Propsim.Simulator.Worlds

/-!
# Deadlines in virtual time

An `eventually_within` property is evaluated on the frames of a window of virtual time that starts
at its anchor. The frames of a run come in the order of their times (`Execution.framesInTime`), so
the window holds the frames that were taken at or after the anchor event, and those that were taken
before it at the same instant (`evaluateOne_after_iff`). An anchor that never occurs counts as the
start of the run. The horizon is computed from the fault schedule alone: a window that does not end
before it can be cut short, and then an invalid verdict does not mean that the deadline was missed
(`notCutShort_iff`).
-/

set_option autoImplicit false
set_option relaxedAutoImplicit false

namespace Propsim.Simulator

open Foundation Interchange Propsim.Core

variable {N : Node} {codec : Option (ClientCodec N)} {ops : List FrozenOp}

/-! ### Frames in time -/

/-- A turn takes a frame at the time of its event, unless the event is skipped, which a fault never
is. -/
theorem Turn.frames_eq {state next : RunState N} {event : Scheduled N}
    (h : Turn codec ops state event next) :
    (faultOf event = none ∧ next.frames = state.frames) ∨
      ∃ nodes, next.frames = state.frames ++ [(event.fireAt, nodes)] := by
  have hnow := h.now_eq
  cases h with
  | skip hpop hbelow hresolve =>
    cases resolves_of_resolve hresolve with
    | skipped _ hfault =>
      refine Or.inl ⟨?_, rfl⟩
      rw [Option.eq_none_iff_forall_ne_some]
      exact fun action hsome ↦ hfault action (faultOf_eq_some_iff.mp hsome)
  | fire hpop hbelow hresolve hhandle =>
    obtain ⟨core, nodes, pumped, -, hpump, rfl⟩ := exists_pump_of_handle hhandle
    have hframes := frames_pumpClientOps hpump
    refine Or.inr ⟨pumped.nodes.filterMap id, ?_⟩
    change pumped.frames ++ [(pumped.core.now, _)] = _
    rw [hframes, ← hnow]
    rfl

/-- The frames of a state are in the order of their times, none later than the clock. -/
structure FramesInTime (state : RunState N) : Prop where
  sorted : state.frames.Pairwise fun first second ↦ first.1 ≤ second.1
  passed : ∀ frame ∈ state.frames, frame.1 ≤ state.core.now

theorem Turn.framesInTime {state next : RunState N} {event : Scheduled N}
    (h : Turn codec ops state event next) (hnow : state.core.now ≤ event.fireAt)
    (hstate : FramesInTime state) : FramesInTime next := by
  have hearlier : ∀ frame ∈ state.frames, frame.1 ≤ event.fireAt := fun frame hframe ↦
    (hstate.passed frame hframe).trans hnow
  rcases h.frames_eq with ⟨-, hframes⟩ | ⟨nodes, hframes⟩
  · refine ⟨by rw [hframes]; exact hstate.sorted, ?_⟩
    rw [hframes, h.now_eq]
    exact hearlier
  · refine ⟨?_, ?_⟩
    · rw [hframes]
      refine List.pairwise_append.mpr ⟨hstate.sorted, List.pairwise_singleton _ _, ?_⟩
      intro frame hframe last hlast
      rw [List.mem_singleton.mp hlast]
      exact hearlier frame hframe
    · rw [hframes, h.now_eq]
      intro frame hframe
      rcases List.mem_append.mp hframe with hframe | hframe
      · exact hearlier frame hframe
      · rw [List.mem_singleton.mp hframe]

section Executions

variable {data : PlanData} {workload : Option Strategy} {seed : Seed}

theorem Execution.framesInTime (e : Execution N data workload codec seed) :
    ∀ state ∈ e.states, FramesInTime state := by
  have hstarted : FramesInTime e.started := by
    obtain ⟨core, nodes, -, hpump⟩ := startRun_eq_ok.mp e.start_eq
    have hframes : e.started.frames = [(core.now, nodes.filterMap id)] :=
      frames_pumpClientOps hpump
    have hnow : e.started.core.now = core.now := by
      rw [(pumpClientOps_frame hpump).2]
      rfl
    exact ⟨by rw [hframes]; exact List.pairwise_singleton _ _, by simp [hframes, hnow]⟩
  intro state hstate
  have hinv := e.loop.invariant
    (P := fun s ↦ (∃ taken, QueueInv taken s.core) ∧ FramesInTime s)
    (fun s event next ⟨⟨taken, hqueue⟩, hs⟩ hturn ↦
      ⟨⟨_, hturn.queueInv hqueue⟩, hturn.framesInTime (hturn.now_le hqueue.later) hs⟩)
    ⟨⟨[], e.started_queueInv.1⟩, hstarted⟩
  exact (hinv state hstate).2

/-- A frame is taken in the turn at a position or later. -/
def TakenFrom (e : Execution N data workload codec seed) (j k : ℕ) : Prop :=
  ∀ state, e.states[j]? = some state → state.frames.length ≤ k

/-- The frames from the turn of a fault on are not before it, and the others are not after it. -/
theorem Execution.frame_time (e : Execution N data workload codec seed) {j k : ℕ}
    {event : Scheduled N} {frame : Duration × List N.State} (hevent : e.taken[j]? = some event)
    (hfault : faultOf event ≠ none) (hframe : e.final.frames[k]? = some frame) :
    (TakenFrom e j k → event.fireAt ≤ frame.1) ∧ (¬TakenFrom e j k → frame.1 ≤ event.fireAt) := by
  obtain ⟨state, next, hstate, hnext, hturn⟩ := e.exists_turn hevent
  have hmem := List.mem_of_getElem? hstate
  obtain ⟨nodes, hframes⟩ : ∃ nodes, next.frames = state.frames ++ [(event.fireAt, nodes)] :=
    hturn.frames_eq.resolve_left fun h ↦ hfault h.1
  have hsorted : e.final.frames.Pairwise fun first second ↦ first.1 ≤ second.1 := by
    rw [e.frames_final]
    exact (e.framesInTime _ (List.mem_of_getElem? e.states_last)).sorted
  have hfirst : e.final.frames[state.frames.length]? = some (event.fireAt, nodes) := by
    obtain ⟨later, hlater⟩ := e.loop.frames_prefix next (List.mem_of_getElem? hnext)
    rw [← hlater, hframes]
    simp
  obtain ⟨hk, rfl⟩ := List.getElem?_eq_some_iff.mp hframe
  obtain ⟨hlength, heq⟩ := List.getElem?_eq_some_iff.mp hfirst
  have htime : e.final.frames[state.frames.length].1 = event.fireAt := by rw [heq]
  constructor
  · intro hfrom
    rcases (hfrom state hstate).lt_or_eq with hlt | rfl
    · rw [← htime]
      exact List.pairwise_iff_getElem.mp hsorted _ _ hlength hk hlt
    · exact htime.ge
  · intro hbefore
    have hlt : k < state.frames.length := by
      by_contra hle
      refine hbefore fun s hs ↦ ?_
      obtain rfl := Option.some.inj (hstate.symm.trans hs)
      exact not_lt.mp hle
    rw [← htime]
    exact List.pairwise_iff_getElem.mp hsorted _ _ hk hlength hlt

/-! ### The anchor -/

/-- The time at which taking an event makes a named run event occur. -/
def occurrence (event : Event) (taken : Scheduled N) : Option Duration :=
  (((faultOf taken).map fun action ↦ (taken.fireAt, action)).bind runEvent).bind (anchors event)

/-- Run events occur when a fault event is taken, at its time. -/
theorem occurrence_eq_some {event : Event} {taken : Scheduled N} {t : Duration}
    (h : occurrence event taken = some t) : faultOf taken ≠ none ∧ t = taken.fireAt := by
  rw [occurrence] at h
  cases hfault : faultOf taken with
  | none => simp [hfault] at h
  | some action =>
    refine ⟨by simp, ?_⟩
    rw [hfault, Option.map_some, Option.bind_some] at h
    cases action with
    | partition a b => cases h
    | crash n => cases h
    | healAll =>
      cases event with
      | networkHealed => exact (Option.some.inj h).symm
      | nodeRejoined => cases h
      | custom name => cases h
    | restart n =>
      cases event with
      | networkHealed => cases h
      | nodeRejoined => exact (Option.some.inj h).symm
      | custom name => cases h

/-- A named event occurs for the first time in the turn at a position, at a time. -/
structure FirstOccurs (e : Execution N data workload codec seed) (event : Event) (j : ℕ)
    (t0 : Duration) : Prop where
  occurs : ∃ taken, e.taken[j]? = some taken ∧ occurrence event taken = some t0
  first : ∀ i taken, i < j → e.taken[i]? = some taken → occurrence event taken = none

/-- The anchor is the time of the first occurrence in the events that are taken. -/
theorem Execution.anchorTime_eq (e : Execution N data workload codec seed) (event : Event) :
    anchorTime (some event) e.result.events =
      (e.taken.findSome? (occurrence event)).getD .zero := by
  rw [anchorTime, e.events_eq, applied, ← List.head?_filterMap, ← List.head?_filterMap,
    List.filterMap_filterMap, List.filterMap_filterMap]
  refine congrArg (fun times : List Duration ↦ times.head?.getD .zero)
    (List.filterMap_congr fun taken _ ↦ ?_)
  rw [occurrence, Option.bind_assoc]

theorem FirstOccurs.anchorTime_eq {e : Execution N data workload codec seed} {event : Event}
    {j : ℕ} {t0 : Duration} (h : FirstOccurs e event j t0) :
    anchorTime (some event) e.result.events = t0 := by
  obtain ⟨taken, htaken, hoccurs⟩ := h.occurs
  obtain ⟨hj, rfl⟩ := List.getElem?_eq_some_iff.mp htaken
  have hfound : e.taken.findSome? (occurrence event) = some t0 := by
    refine List.findSome?_eq_some_iff.mpr
      ⟨e.taken.take j, e.taken[j], e.taken.drop (j + 1), ?_, hoccurs, fun taken hmem ↦ ?_⟩
    · rw [List.getElem_cons_drop, List.take_append_drop]
    · obtain ⟨i, hi⟩ := List.mem_iff_getElem?.mp hmem
      rw [List.getElem?_take, Option.ite_none_right_eq_some] at hi
      exact h.first i taken hi.1 hi.2
  rw [e.anchorTime_eq, hfound]
  rfl

theorem Execution.anchorTime_eq_zero (e : Execution N data workload codec seed) {event : Event}
    (hnever : ∀ j t0, ¬FirstOccurs e event j t0) :
    anchorTime (some event) e.result.events = .zero := by
  rw [e.anchorTime_eq]
  cases hfound : e.taken.findSome? (occurrence event) with
  | none => rfl
  | some t0 =>
    obtain ⟨before, taken, after, heq, hoccurs, hnone⟩ := List.findSome?_eq_some_iff.mp hfound
    refine absurd ⟨⟨taken, ?_, hoccurs⟩, fun i event' hi hevent' ↦ ?_⟩ (hnever before.length t0)
    · rw [heq]
      simp
    · rw [heq, List.getElem?_append_left hi] at hevent'
      exact hnone event' (List.mem_of_getElem? hevent')

/-! ### The window -/

/-- The verdict of a deadline is that of the frames in its window. -/
theorem evaluateOne_within_iff {S : Type} {prop : Property S} {deadline : Duration}
    {trace : WorldTrace S} {events : List RunEvent} {verdict : Verdict}
    (hkind : prop.kind = .eventuallyWithin deadline)
    (h : evaluateOne prop trace events = .ok verdict) :
    verdict.isValid = true ↔ ∃ frame ∈ trace.frames, anchorTime prop.after events ≤ frame.1 ∧
      frame.1.nanos ≤ (anchorTime prop.after events).nanos + deadline.nanos ∧
      evalFrame prop trace frame = true := by
  simp only [evaluateOne, hkind, except_bind_eq_ok] at h
  obtain ⟨hi, hsum, h⟩ := h
  rw [← nanos_of_addDuration hsum]
  have hwindow (frame : Duration × List S) :
      (if frame.1 < anchorTime prop.after events ∨ hi < frame.1 then false
        else evalFrame prop trace frame) = true ↔
      anchorTime prop.after events ≤ frame.1 ∧ frame.1.nanos ≤ hi.nanos ∧
        evalFrame prop trace frame = true := by
    rw [← Duration.le_iff, ← not_lt, ← not_lt]
    split_ifs with hout
    · simp only [false_iff]
      tauto
    · tauto
  split_ifs at h with hmet
  · obtain rfl := except_pure_eq_ok.mp h
    obtain ⟨frame, hframe, hin⟩ := List.any_eq_true.mp hmet
    exact iff_of_true rfl ⟨frame, hframe, (hwindow frame).mp hin⟩
  · obtain rfl := except_pure_eq_ok.mp h
    refine iff_of_false (by simp) fun ⟨frame, hframe, hin⟩ ↦ hmet ?_
    exact List.any_eq_true.mpr ⟨frame, hframe, (hwindow frame).mpr hin⟩

/-- The verdict of a deadline after an event. When the event occurs, it is that of the frames taken
from its first occurrence on, or before it at the same instant, up to the deadline. When it never
occurs, the deadline counts from the start of the run. -/
theorem Execution.evaluateOne_after_iff (e : Execution N data workload codec seed)
    {prop : Property N.State} {deadline : Duration} {event : Event} {verdict : Verdict}
    (hkind : prop.kind = .eventuallyWithin deadline) (hafter : prop.after = some event)
    (h : evaluateOne prop e.result.worldTrace e.result.events = .ok verdict) :
    (∀ j t0, FirstOccurs e event j t0 →
      (verdict.isValid = true ↔ ∃ k frame, e.result.worldTrace.frames[k]? = some frame ∧
        (TakenFrom e j k ∨ frame.1 = t0) ∧ frame.1.nanos ≤ t0.nanos + deadline.nanos ∧
        evalFrame prop e.result.worldTrace frame = true)) ∧
    ((∀ j t0, ¬FirstOccurs e event j t0) →
      (verdict.isValid = true ↔ ∃ frame ∈ e.result.worldTrace.frames, frame.1 ≤ deadline ∧
        evalFrame prop e.result.worldTrace frame = true)) := by
  have hwindow := evaluateOne_within_iff hkind h
  rw [hafter] at hwindow
  constructor
  · intro j t0 hfirst
    rw [hwindow, hfirst.anchorTime_eq]
    obtain ⟨taken, htaken, hoccurs⟩ := hfirst.occurs
    obtain ⟨hfault, rfl⟩ := occurrence_eq_some hoccurs
    constructor
    · rintro ⟨frame, hframe, hfrom, hupto, heval⟩
      obtain ⟨k, hk⟩ := List.mem_iff_getElem?.mp hframe
      refine ⟨k, frame, hk, ?_, hupto, heval⟩
      by_cases hat : TakenFrom e j k
      · exact Or.inl hat
      · exact Or.inr (le_antisymm ((e.frame_time htaken hfault hk).2 hat) hfrom)
    · rintro ⟨k, frame, hk, hfrom, hupto, heval⟩
      refine ⟨frame, List.mem_of_getElem? hk, ?_, hupto, heval⟩
      rcases hfrom with hat | hsame
      · exact (e.frame_time htaken hfault hk).1 hat
      · exact hsame.ge
  · intro hnever
    rw [hwindow, e.anchorTime_eq_zero hnever]
    have hzero : Duration.zero.nanos = 0 := rfl
    simp only [Duration.le_iff, hzero, Nat.zero_le, true_and, Nat.zero_add]

/-- In every run, the verdict of a deadline after an event is that of a window of virtual time, from
the first occurrence of the event, or from the start of a run in which it never occurs. -/
theorem runDeterministic_after_iff {fuel : ℕ} {nodeDef : Option NodeDef} {run : TypedRun N}
    (h : runDeterministic fuel data nodeDef workload codec seed = .ok (.ok run)) :
    ∃ e : Execution N data workload codec seed, e.result = run ∧
      ∀ (prop : Property N.State) (deadline : Duration) (event : Event) (verdict : Verdict),
        prop.kind = .eventuallyWithin deadline → prop.after = some event →
        evaluateOne prop run.worldTrace run.events = .ok verdict →
        (∀ j t0, FirstOccurs e event j t0 →
          (verdict.isValid = true ↔ ∃ k frame, run.worldTrace.frames[k]? = some frame ∧
            (TakenFrom e j k ∨ frame.1 = t0) ∧ frame.1.nanos ≤ t0.nanos + deadline.nanos ∧
            evalFrame prop run.worldTrace frame = true)) ∧
        ((∀ j t0, ¬FirstOccurs e event j t0) →
          (verdict.isValid = true ↔ ∃ frame ∈ run.worldTrace.frames, frame.1 ≤ deadline ∧
            evalFrame prop run.worldTrace frame = true)) := by
  obtain ⟨e, rfl⟩ := exists_execution h
  exact ⟨e, rfl, fun prop deadline event verdict hkind hafter hverdict ↦
    e.evaluateOne_after_iff hkind hafter hverdict⟩

/-- The predicate holds in a frame taken at the first occurrence of an event or later in the run, up
to the deadline. -/
def HeldAfter (e : Execution N data workload codec seed) (prop : Property N.State) (event : Event)
    (deadline : Duration) : Prop :=
  ∃ j t0, FirstOccurs e event j t0 ∧ ∃ k frame, e.result.worldTrace.frames[k]? = some frame ∧
    TakenFrom e j k ∧ frame.1.nanos ≤ t0.nanos + deadline.nanos ∧
    evalFrame prop e.result.worldTrace frame = true

/-! ### The horizon -/

/-- The anchor of a deadline in the fault events of a queue that lie below a horizon. -/
def scheduledAnchor (after : Option Event) (horizon : Duration) (queue : List (Scheduled N)) :
    Duration :=
  match after with
  | none => .zero
  | some event =>
    ((queue.filter fun scheduled ↦ scheduled.fireAt < horizon).findSome?
      (occurrence event)).getD .zero

/-- The anchor of a run is that of the schedule that lowering leaves. -/
theorem Execution.scheduledAnchor_eq (e : Execution N data workload codec seed)
    (after : Option Event) :
    anchorTime after e.result.events =
      scheduledAnchor after e.final.core.horizon e.prepared.queue.toList := by
  cases after with
  | none => rfl
  | some event =>
    have hparts := e.loop.faultEvents_eq
    rw [e.started_faultEvents] at hparts
    have htaken : e.prepared.queue.toList.filter (fun scheduled ↦
        scheduled.fireAt < e.final.core.horizon) = faultEvents e.taken := by
      rw [hparts, List.filter_append, List.filter_eq_self.mpr, List.filter_eq_nil_iff.mpr,
        List.append_nil]
      · rfl
      · intro event hevent
        obtain ⟨hstops, -⟩ := e.loop.stops
        have hleft := hstops.horizon_le.1 event (mem_faultEvents.mp hevent).1
        rw [hstops.keeps.1]
        simpa using hleft
      · intro event hevent
        simpa using e.queueOrdered.below event (mem_faultEvents.mp hevent).1
    have hsame : (faultEvents e.taken).findSome? (occurrence event) =
        e.taken.findSome? (occurrence event) := by
      rw [← List.head?_filterMap, ← List.head?_filterMap, faultEvents, List.filterMap_filter]
      refine congrArg List.head? (List.filterMap_congr fun scheduled _ ↦ ?_)
      cases hfault : faultOf scheduled with
      | some action => rfl
      | none => simp [occurrence, hfault]
    rw [e.anchorTime_eq, scheduledAnchor, htaken, hsame]

/-- The queue is drained when the loop stops. -/
def Drained (e : Execution N data workload codec seed) : Prop :=
  (lastState e.started e.steps).core.queue.toList = []

/-- An invalid verdict is not caused by the end of the run: the queue was drained, or the window of
the deadline ends before the horizon. -/
def NotCutShort (e : Execution N data workload codec seed) (prop : Property N.State)
    (deadline : Duration) : Prop :=
  ∀ verdict, evaluateOne prop e.result.worldTrace e.result.events = .ok verdict →
    verdict.isValid = false → Drained e ∨
      (anchorTime prop.after e.result.events).nanos + deadline.nanos < e.final.core.horizon.nanos

/-- No property of a deadline is cut short exactly when the queue is drained, or the deadline ends
before the horizon when it counts from the anchor in the lowered fault schedule. -/
theorem Execution.notCutShort_iff (e : Execution N data workload codec seed) (after : Option Event)
    (deadline : Duration) :
    (∀ name predicate, NotCutShort e ⟨name, .eventuallyWithin deadline, predicate, after⟩
      deadline) ↔ Drained e ∨
      ∀ hi, addDuration (scheduledAnchor after e.final.core.horizon e.prepared.queue.toList)
        deadline = .ok hi → hi < e.final.core.horizon := by
  rw [← e.scheduledAnchor_eq]
  constructor
  · intro h
    rw [or_iff_not_imp_left]
    intro hleft hi hsum
    -- A predicate that never holds misses the deadline.
    have hmissed := h "" (fun _ ↦ false)
      (.invalid [.withDetail "deadline-exceeded" (.notWithin "" deadline after)])
      (by simp [evaluateOne, hsum, evalFrame]) rfl
    rw [Duration.lt_iff, nanos_of_addDuration hsum]
    exact hmissed.resolve_left hleft
  · rintro h name predicate verdict hverdict -
    simp only [evaluateOne, except_bind_eq_ok] at hverdict
    obtain ⟨hi, hsum, -⟩ := hverdict
    refine h.imp id fun hbefore ↦ ?_
    rw [← nanos_of_addDuration hsum]
    exact hbefore hi hsum

/-- In every run, no property of a deadline is cut short exactly when the queue is drained, or the
deadline ends before the horizon of the plan when it counts from the anchor in the lowered fault
schedule. -/
theorem runDeterministic_notCutShort_iff {fuel : ℕ} {nodeDef : Option NodeDef} {run : TypedRun N}
    {prepared : SchedCore N} {horizon : Duration}
    (hprepare : prepareCore N data seed = .ok prepared) (hhorizon : runHorizon data = .ok horizon)
    (h : runDeterministic fuel data nodeDef workload codec seed = .ok (.ok run)) :
    ∃ e : Execution N data workload codec seed, e.result = run ∧
      ∀ (after : Option Event) (deadline : Duration),
        (∀ name predicate, NotCutShort e ⟨name, .eventuallyWithin deadline, predicate, after⟩
          deadline) ↔ Drained e ∨
          ∀ hi, addDuration (scheduledAnchor after horizon prepared.queue.toList) deadline =
            .ok hi → hi < horizon := by
  obtain ⟨e, rfl⟩ := exists_execution h
  obtain rfl := Except.ok.inj (e.prepare_eq.symm.trans hprepare)
  obtain rfl := Except.ok.inj (e.queueOrdered.horizon_eq.symm.trans hhorizon)
  exact ⟨e, rfl, e.notCutShort_iff⟩

end Executions

/-! ### A late timer and a restart -/

/-- A node that sets a timer when it starts, and counts how often it has started and how often the
timer has fired. -/
def riser (after : Duration) : Node where
  State := ℕ × ℕ
  Msg := Unit
  Timer := Unit
  Op := Unit
  Response := Unit
  default := (0, 0)
  debug _ := "()"
  onStart state := .setTimer () after (.done (state.1 + 1, state.2))
  onMsg state _ _ := .done state
  onTimer state _ := .done (state.1, state.2 + 1)
  onClientOp state _ _ := .done (state, .done ())

/-- A timer is set for a second after the end of the run. -/
def lateRiser : Node := riser (.fromSecs 16)

/-- One node, with no operations and no faults. -/
def quietPlan : PlanData := ⟨1, none, none, 1, none⟩

/-- There is one node, in a given state. -/
def inState (state : ℕ × ℕ) (nodes : List (ℕ × ℕ)) : Bool := nodes = [state]

/-- The timer fires within twenty seconds. -/
def fires : Property lateRiser.State :=
  ⟨"fires", .eventuallyWithin (.fromSecs 20),
    fun world ↦ inState (1, 1) world.nodes, none⟩

/-- What decides whether a deadline of the late timer is cut short. -/
theorem lateRiser_notCutShort_iff :
    ∃ run prepared, runDeterministic 8 quietPlan none none none ⟨0⟩ = .ok (.ok run) ∧
      prepareCore lateRiser quietPlan ⟨0⟩ = .ok prepared ∧
      ∃ e : Execution lateRiser quietPlan none none ⟨0⟩, e.result = run ∧
        ∀ (after : Option Event) (deadline : Duration),
          (∀ name predicate, NotCutShort e ⟨name, .eventuallyWithin deadline, predicate, after⟩
            deadline) ↔ Drained e ∨
            ∀ hi,
              addDuration (scheduledAnchor after (.fromSecs 15) prepared.queue.toList) deadline =
                .ok hi → hi < .fromSecs 15 := by
  obtain ⟨run, hrun⟩ := exists_run_of_isSome (N := lateRiser)
    (x := runDeterministic 8 quietPlan none none none ⟨0⟩) (by decide +kernel)
  obtain ⟨e, -⟩ := exists_execution hrun
  exact ⟨run, e.prepared, hrun, e.prepare_eq, runDeterministic_notCutShort_iff e.prepare_eq
    (by decide +kernel) hrun⟩

/-- The run ends at fifteen seconds, before the timer is due, and the deadline of twenty seconds is
reported as missed. -/
theorem lateRiser_cutShort :
    ∃ run, runDeterministic 8 quietPlan none none none ⟨0⟩ = .ok (.ok run) ∧
      ∃ e : Execution lateRiser quietPlan none none ⟨0⟩, e.result = run ∧
        ¬NotCutShort e fires (.fromSecs 20) := by
  obtain ⟨run, hrun⟩ := exists_run_of_isSome (N := lateRiser)
    (x := runDeterministic 8 quietPlan none none none ⟨0⟩) (by decide +kernel)
  obtain ⟨e, he⟩ := exists_execution hrun
  refine ⟨run, hrun, e, he, fun h ↦ ?_⟩
  have hverdict : (evaluateOne fires e.result.worldTrace e.result.events).toOption.map (·.isValid) =
      some false :=
    e.of_compute (f := fun e ↦
      (evaluateOne fires e.result.worldTrace e.result.events).toOption.map (·.isValid)) 8
      (by decide +kernel)
  have hleft : (lastState e.started e.steps).core.queue.toList.length = 1 :=
    e.of_compute (f := fun e ↦ (lastState e.started e.steps).core.queue.toList.length) 8
      (by decide +kernel)
  have hend : e.final.core.horizon = .fromSecs 15 :=
    e.of_compute (f := fun e ↦ e.final.core.horizon) 8 (by decide +kernel)
  obtain ⟨verdict, hsome, hinvalid⟩ := Option.map_eq_some_iff.mp hverdict
  rcases h verdict (eq_ok_of_toOption hsome) hinvalid with hdrained | hbefore
  · rw [Drained] at hdrained
    simp [hdrained] at hleft
  · rw [hend] at hbefore
    exact absurd hbefore (by simp [fires, anchorTime, Duration.nanos_fromSecs])

/-- A network that heals and then a node that restarts, both at one millisecond. -/
def rejoinPlan : PlanData :=
  counterPlan 1 [⟨.fromMillis 1, .healAll⟩, ⟨.fromMillis 1, .restart ⟨0⟩⟩] []

/-- The node is in its first life within a second after an event. -/
def firstLife (after : Event) : Property lateRiser.State :=
  ⟨"first-life", .eventuallyWithin (.fromSecs 1),
    fun world ↦ inState (1, 0) world.nodes, some after⟩

/-- The verdict of the first life after the restart. -/
theorem rejoinPlan_after_iff :
    ∃ run, runDeterministic 8 rejoinPlan none none none ⟨0⟩ = .ok (.ok run) ∧
      ∃ e : Execution lateRiser rejoinPlan none none ⟨0⟩, e.result = run ∧
        ∃ verdict, evaluateOne (firstLife .nodeRejoined) run.worldTrace run.events = .ok verdict ∧
          ∀ j t0, FirstOccurs e .nodeRejoined j t0 →
            (verdict.isValid = true ↔ ∃ k frame, run.worldTrace.frames[k]? = some frame ∧
              (TakenFrom e j k ∨ frame.1 = t0) ∧
              frame.1.nanos ≤ t0.nanos + (Duration.fromSecs 1).nanos ∧
              evalFrame (firstLife .nodeRejoined) run.worldTrace frame = true) := by
  obtain ⟨run, hrun⟩ := exists_run_of_isSome (N := lateRiser)
    (x := runDeterministic 8 rejoinPlan none none none ⟨0⟩) (by decide +kernel)
  obtain ⟨e, he, hverdicts⟩ := runDeterministic_after_iff hrun
  have hverdict : (evaluateOne (firstLife .nodeRejoined) e.result.worldTrace
      e.result.events).toOption.isSome = true :=
    e.of_compute (f := fun e ↦ (evaluateOne (firstLife .nodeRejoined) e.result.worldTrace
      e.result.events).toOption.isSome) 8 (by decide +kernel)
  rw [he] at hverdict
  obtain ⟨verdict, hsome⟩ := Option.isSome_iff_exists.mp hverdict
  have hok := eq_ok_of_toOption hsome
  exact ⟨run, hrun, e, he, verdict, hok, (hverdicts _ _ _ verdict rfl rfl hok).1⟩

/-- The first life ends with the restart, but the frame of the healing, at the same instant and
before the restart, meets the deadline. The first frame meets one after an event that never
occurs. -/
theorem rejoinPlan_not_heldAfter :
    ∃ run, runDeterministic 8 rejoinPlan none none none ⟨0⟩ = .ok (.ok run) ∧
      ∃ e : Execution lateRiser rejoinPlan none none ⟨0⟩, e.result = run ∧
        ((evaluateOne (firstLife .nodeRejoined) run.worldTrace run.events).toOption.map
            (·.isValid) = some true ∧
          ¬HeldAfter e (firstLife .nodeRejoined) .nodeRejoined (.fromSecs 1)) ∧
        (evaluateOne (firstLife (.custom "elected")) run.worldTrace run.events).toOption.map
            (·.isValid) = some true ∧
          ∀ j t0, ¬FirstOccurs e (.custom "elected") j t0 := by
  obtain ⟨run, hrun⟩ := exists_run_of_isSome (N := lateRiser)
    (x := runDeterministic 8 rejoinPlan none none none ⟨0⟩) (by decide +kernel)
  obtain ⟨e, rfl⟩ := exists_execution hrun
  have hverdict (event : Event) (h : ((computeExecution lateRiser rejoinPlan none none ⟨0⟩ 8).map
      fun e ↦ (evaluateOne (firstLife event) e.result.worldTrace e.result.events).toOption.map
        (·.isValid)) = some (some true)) :
      (evaluateOne (firstLife event) e.result.worldTrace e.result.events).toOption.map (·.isValid) =
        some true :=
    e.of_compute (f := fun e ↦ (evaluateOne (firstLife event) e.result.worldTrace
      e.result.events).toOption.map (·.isValid)) 8 h
  have hrejoined : e.taken.map (occurrence .nodeRejoined) = [none, some (.fromMillis 1)] :=
    e.of_compute (f := fun e ↦ e.taken.map (occurrence .nodeRejoined)) 8 (by decide +kernel)
  have helected : e.taken.map (occurrence (.custom "elected")) = [none, none] :=
    e.of_compute (f := fun e ↦ e.taken.map (occurrence (.custom "elected"))) 8 (by decide +kernel)
  have hlengths : e.states.map (·.frames.length) = [1, 2, 3] :=
    e.of_compute (f := fun e ↦ e.states.map (·.frames.length)) 8 (by decide +kernel)
  have hmeets : e.result.worldTrace.frames.map
      (evalFrame (firstLife .nodeRejoined) e.result.worldTrace) = [true, true, false] :=
    e.of_compute (f := fun e ↦ e.result.worldTrace.frames.map
      (evalFrame (firstLife .nodeRejoined) e.result.worldTrace)) 8 (by decide +kernel)
  have hat (event : Event) (j : ℕ) (t0 : Duration) (h : FirstOccurs e event j t0) :
      (e.taken.map (occurrence event))[j]? = some (some t0) := by
    obtain ⟨taken, htaken, hoccurs⟩ := h.occurs
    rw [List.getElem?_map, htaken, Option.map_some, hoccurs]
  refine ⟨_, hrun, e, rfl, ⟨hverdict _ (by decide +kernel), ?_⟩, hverdict _ (by decide +kernel),
    fun j t0 hfirst ↦ ?_⟩
  · rintro ⟨j, t0, hfirst, k, frame, hframe, hfrom, -, heval⟩
    have hturn := hat _ j t0 hfirst
    rw [hrejoined] at hturn
    -- The restart is the second turn, and only the last frame is taken in it.
    obtain rfl : j = 1 := by
      rcases j with _ | _ | j <;> simp at hturn ⊢
    have hlast : 2 ≤ k := by
      have hbefore : e.states[1]?.map (·.frames.length) = some 2 := by
        rw [← List.getElem?_map, hlengths]
        rfl
      obtain ⟨state, hstate, hlength⟩ := Option.map_eq_some_iff.mp hbefore
      exact hlength ▸ hfrom state hstate
    have hmet : [true, true, false][k]? = some true := by
      rw [← hmeets, List.getElem?_map, hframe, Option.map_some, heval]
    rcases k with _ | _ | _ | k <;> simp at hlast hmet
  · have hturn := hat _ j t0 hfirst
    rw [helected] at hturn
    rcases j with _ | _ | j <;> simp at hturn

end Propsim.Simulator
