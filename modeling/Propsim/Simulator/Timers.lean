import Propsim.Simulator.Messages

/-!
# Timers from their arming to their firing

Cancellation is lazy: a timer of a node is armed under a new generation, and a queued firing of an
older one is skipped. The generation of a key is the number of times it was set or cancelled
(`Timed`), so a queued firing is current exactly when its key was not touched since. Hence a timer
fires at its due time, for its last arming and once (`TimersKept`, and `Arrives.timersTraced` for a
run that need not come to an end). A cancellation at the due time itself still comes before the
firing when it is handled first (`simultaneous_not_timersFire`).
-/

set_option autoImplicit false
set_option relaxedAutoImplicit false

namespace Propsim.Simulator

open Foundation Interchange Propsim.Core

variable {N : Node} {codec : Option (ClientCodec N)} {ops : List FrozenOp}

/-! ### The generation of a timer -/

/-- A moment sets or cancels the timer of a key. -/
def Moment.touches (key : UInt64 × String) (m : Moment N) : Bool :=
  match m.act with
  | .setTimer node timer _ => SchedCore.timerKey node timer = key
  | .cancelTimer node timer => SchedCore.timerKey node timer = key
  | .send _ _ _ => false
  | .take _ => false

/-- The firing that a moment arms. -/
def Moment.armed (m : Moment N) : Option (Scheduled N) :=
  match m.act with
  | .setTimer node timer after =>
    match addDuration m.core.now after with
    | .error _ => none
    | .ok due =>
      some ⟨due, m.core.seq,
        .timer node timer (m.core.timerGen (SchedCore.timerKey node timer) + 1)⟩
  | _ => none

theorem Moment.armed_eq_some {m : Moment N} {event : Scheduled N} :
    m.armed = some event ↔ ∃ node timer after, m.act = .setTimer node timer after ∧
      addDuration m.core.now after = .ok event.fireAt ∧ event.seq = m.core.seq ∧
      event.kind = .timer node timer (m.core.timerGen (SchedCore.timerKey node timer) + 1) := by
  obtain ⟨core, act⟩ := m
  obtain ⟨fireAt, seq, kind⟩ := event
  cases act with
  | send a b msg => simp [Moment.armed]
  | cancelTimer node timer => simp [Moment.armed]
  | take event => simp [Moment.armed]
  | setTimer node timer after =>
    simp only [Moment.armed]
    cases hsum : addDuration core.now after with
    | error halt =>
      simp only [reduceCtorEq, false_iff]
      rintro ⟨node', timer', after', hact, hother, -⟩
      obtain ⟨rfl, rfl, rfl⟩ := Act.setTimer.inj hact
      rw [hsum] at hother
      cases hother
    | ok due =>
      simp only [Option.some.injEq, Scheduled.mk.injEq]
      constructor
      · rintro ⟨rfl, rfl, rfl⟩
        exact ⟨node, timer, after, rfl, hsum, rfl, rfl⟩
      · rintro ⟨node', timer', after', hact, hother, rfl, rfl⟩
        obtain ⟨rfl, rfl, rfl⟩ := Act.setTimer.inj hact
        rw [hsum] at hother
        exact ⟨Except.ok.inj hother, rfl, rfl⟩

/-- A moment advances the generations of the keys that it touches. -/
theorem Moment.Leads.timerGen_eq {m : Moment N} {core' : SchedCore N} (h : m.Leads core')
    (key : UInt64 × String) :
    core'.timerGen key = m.core.timerGen key + if m.touches key then 1 else 0 := by
  obtain ⟨core, act⟩ := m
  have hupdate (node : NodeId) (timer : N.Timer) :
      (core.cancelTimer node timer).timerGen key =
        core.timerGen key + if SchedCore.timerKey node timer = key then 1 else 0 := by
    have hgen : (core.cancelTimer node timer).timerGen = Function.update core.timerGen
        (SchedCore.timerKey node timer) (core.timerGen (SchedCore.timerKey node timer) + 1) := rfl
    rw [hgen, Function.update_apply]
    by_cases hkey : SchedCore.timerKey node timer = key
    · rw [if_pos hkey.symm, if_pos hkey, hkey]
    · rw [if_neg (Ne.symm hkey), if_neg hkey, Nat.add_zero]
  cases act with
  | send a b msg =>
    rw [scheduleDelivery_frame h]
    rfl
  | setTimer node timer after =>
    obtain ⟨fireAt, -, rfl⟩ := armTimer_eq_ok h
    refine (hupdate node timer).trans ?_
    simp [Moment.touches]
  | cancelTimer node timer =>
    obtain rfl : core' = core.cancelTimer node timer := h
    refine (hupdate node timer).trans ?_
    simp [Moment.touches]
  | take event =>
    obtain ⟨queue, popped, -, -, hresolve⟩ := h
    obtain ⟨-, -, hgen⟩ := resolve_frame hresolve
    rw [hgen]
    rfl

/-- The moments so far and the timers: a generation counts the times its key was touched, and a
queued firing was armed before. -/
structure Timed (log : List (Moment N)) (core : SchedCore N) : Prop where
  queue : QueueInv (takenIn log) core
  gens : ∀ key, core.timerGen key = log.countP (Moment.touches key)
  stems : ∀ event ∈ core.queue.toList, ∀ node timer gen, event.kind = .timer node timer gen →
    ∃ m ∈ log, m.armed = some event

/-- A timer event in the queue after a step was queued before it, or the step arms it. -/
theorem MomentStep.timer_queued {x y : List (Moment N) × SchedCore N} (h : MomentStep x y)
    (hx : QueueInv (takenIn x.1) x.2) {event : Scheduled N} (hevent : event ∈ y.2.queue.toList)
    {node : NodeId} {timer : N.Timer} {gen : ℕ} (hkind : event.kind = .timer node timer gen) :
    event ∈ x.2.queue.toList ∨ ∃ m, y.1 = x.1 ++ [m] ∧ m.armed = some event := by
  cases h with
  | quiet => exact .inl hevent
  | issue =>
    rcases PriorityQueue.mem_push.mp hevent with rfl | hevent
    · cases hkind
    · exact .inl hevent
  | send log hsend =>
    have hcopies := copies_of_ok (seq_lt_of_queueInv hx) hsend
    rcases (hcopies.mem_queue event).mp hevent with hcopy | hold
    · obtain ⟨sampled, hiscopy, -⟩ := hcopies.mem hcopy
      rw [hiscopy.kind] at hkind
      cases hkind
    · exact .inl hold
  | setTimer log hset =>
    obtain ⟨fireAt, hsum, rfl⟩ := armTimer_eq_ok hset
    rcases PriorityQueue.mem_push.mp hevent with rfl | hevent
    · exact .inr ⟨_, rfl, Moment.armed_eq_some.mpr ⟨_, _, _, rfl, hsum, rfl, rfl⟩⟩
    · exact .inl hevent
  | cancelTimer => exact .inl hevent
  | take log hpop hbelow hresolve =>
    refine .inl ?_
    have hqueue := (sameQueue_resolve hresolve).queue_eq
    simp only [hqueue] at hevent
    simp only [PriorityQueue.pop_eq_some_iff.mp hpop]
    exact List.mem_cons_of_mem _ hevent

/-- Every step keeps the invariant. -/
theorem MomentStep.timed {x y : List (Moment N) × SchedCore N} (h : MomentStep x y)
    (hx : Timed x.1 x.2) : Timed y.1 y.2 := by
  refine ⟨h.queueInv hx.queue, fun key ↦ ?_, fun event hevent node timer gen hkind ↦ ?_⟩
  · rcases h.log_eq with hlog | ⟨m, hcore, hlog, hleads⟩
    · have hgen : y.2.timerGen = x.2.timerGen := by
        cases h with
        | quiet => rfl
        | issue => rfl
        | send => simp at hlog
        | setTimer => simp at hlog
        | cancelTimer => simp at hlog
        | take => simp at hlog
      rw [hlog, hgen]
      exact hx.gens key
    · rw [hlog, hleads.timerGen_eq, hcore, hx.gens key, List.countP_append, List.countP_singleton]
  · rcases h.timer_queued hx.queue hevent hkind with hold | ⟨m, hlog, harmed⟩
    · obtain ⟨m, hm, harmed⟩ := hx.stems event hold node timer gen hkind
      refine ⟨m, ?_, harmed⟩
      rcases h.log_eq with hlog | ⟨last, -, hlog, -⟩
      · rw [hlog]
        exact hm
      · rw [hlog]
        exact List.mem_append_left _ hm
    · exact ⟨m, by rw [hlog]; simp, harmed⟩

/-! ### Timers of a run -/

/-- A count over a prefix stays the same while nothing is counted. -/
theorem countP_take_eq_iff {α : Type*} {p : α → Bool} {l : List α} {i k : ℕ} (hik : i ≤ k) :
    (l.take k).countP p = (l.take i).countP p ↔
      ∀ (j : ℕ) (a : α), i ≤ j → j < k → l[j]? = some a → p a = false := by
  obtain ⟨d, rfl⟩ := Nat.exists_eq_add_of_le hik
  rw [List.take_add, List.countP_append, Nat.add_eq_left, List.countP_eq_zero]
  simp only [mem_take_iff, List.getElem?_drop, Bool.not_eq_true]
  constructor
  · intro h j a hij hjd hj
    exact h a ⟨j - i, by omega, by rwa [Nat.add_sub_cancel' hij]⟩
  · rintro h a ⟨j, hlt, hj⟩
    exact h (i + j) a (Nat.le_add_right _ _) (by omega) hj

section Courses

variable {data : PlanData} {workload : Option Strategy} {seed : Seed}

/-- Lowering arms nothing. -/
theorem timed_prepared {prepared : SchedCore N}
    (hprepare : prepareCore N data seed = .ok prepared) : Timed [] prepared := by
  obtain ⟨htimer, hgen⟩ := prepared_core
    (P := fun core : SchedCore N ↦ (∀ event ∈ core.queue.toList, ∀ node timer gen,
      event.kind ≠ .timer node timer gen) ∧ ∀ key, core.timerGen key = 0)
    (fun core fireAt action h ↦ ⟨fun event hevent node timer gen ↦ by
      rcases PriorityQueue.mem_push.mp hevent with rfl | hevent
      · simp
      · exact h.1 event hevent node timer gen, h.2⟩)
    (fun _ _ h ↦ h) hprepare fun _ _ ↦ ⟨by simp [SchedCore.new], fun _ ↦ rfl⟩
  exact ⟨queueInv_prepared hprepare, hgen, fun event hevent node timer gen hkind ↦
    absurd hkind (htimer event hevent node timer gen)⟩

theorem Course.timed (c : Course N data seed) : Timed c.moments c.core :=
  c.steps.invariant (P := Timed) (fun _ _ hstep ↦ hstep.timed) (timed_prepared c.prepare_eq)

/-- The invariant holds at every moment of a run. -/
theorem Course.timed_at (c : Course N data seed) {k : ℕ} {m : Moment N}
    (hk : c.moments[k]? = some m) : Timed (c.moments.take k) m.core :=
  (c.steps.through hk).1.invariant (P := Timed) (fun _ _ hstep ↦ hstep.timed)
    (timed_prepared c.prepare_eq)

/-- A queued firing is current exactly when its key was not touched since it was armed. -/
theorem Course.current_iff (c : Course N data seed) {i k : ℕ}
    {armed core : SchedCore N} {node : NodeId} {timer : N.Timer} {after : Duration}
    (hi : c.moments[i]? = some ⟨armed, .setTimer node timer after⟩) {act : Act N}
    (hk : c.moments[k]? = some ⟨core, act⟩) (hik : i < k) :
    core.timerGen (SchedCore.timerKey node timer) =
        armed.timerGen (SchedCore.timerKey node timer) + 1 ↔
      ∀ (j : ℕ) (m : Moment N), i < j → j < k → c.moments[j]? = some m →
        m.touches (SchedCore.timerKey node timer) = false := by
  have harmed : armed.timerGen (SchedCore.timerKey node timer) + 1 =
      (c.moments.take (i + 1)).countP (Moment.touches (SchedCore.timerKey node timer)) := by
    rw [List.take_add_one, hi, Option.toList_some, List.countP_append, List.countP_singleton,
      ← (c.timed_at hi).gens]
    simp [Moment.touches]
  rw [harmed, (c.timed_at hk).gens]
  exact countP_take_eq_iff hik

/-- A timer event that is taken was armed before. -/
theorem Course.armed_of_taken (c : Course N data seed) {k : ℕ}
    {core : SchedCore N} {event : Scheduled N} (hk : c.moments[k]? = some ⟨core, .take event⟩)
    {node : NodeId} {timer : N.Timer} {gen : ℕ} (hkind : event.kind = .timer node timer gen) :
    ∃ i < k, ∃ m, c.moments[i]? = some m ∧ m.armed = some event := by
  obtain ⟨m, hm, harmed⟩ := (c.timed_at hk).stems event (c.queued_at hk) node timer gen hkind
  obtain ⟨i, hlt, hi⟩ := mem_take_iff.mp hm
  exact ⟨i, hlt, m, hi, harmed⟩

/-- A timer fires at a moment: the event taken there resolves to it. -/
def FiresAt (log : List (Moment N)) (k : ℕ) (event : Scheduled N) (node : NodeId)
    (timer : N.Timer) : Prop :=
  ∃ core, log[k]? = some ⟨core, .take event⟩ ∧
    (core.resolve event).1 = some (.timer node timer)

theorem resolve_eq_timer {core : SchedCore N} {event : Scheduled N} {node : NodeId}
    {timer : N.Timer} : (core.resolve event).1 = some (.timer node timer) ↔
      event.kind = .timer node timer (core.timerGen (SchedCore.timerKey node timer)) ∧
        node ∉ core.crashed := by
  constructor
  · intro h
    cases hkind : event.kind with
    | deliver a b msg =>
      simp only [SchedCore.resolve, hkind] at h
      split_ifs at h
      cases h
    | timer node' timer' gen =>
      simp only [SchedCore.resolve, hkind] at h
      split_ifs at h with hfires
      obtain ⟨rfl, rfl⟩ := PoppedEvent.timer.inj (Option.some.inj h)
      have hgen : core.timerGen (SchedCore.timerKey node' timer') = gen := by
        simpa [SchedCore.timerIsCurrent] using hfires.1
      exact ⟨by rw [hgen], hfires.2⟩
    | clientOp process index => simp [SchedCore.resolve, hkind] at h
    | fault action => simp [SchedCore.resolve, hkind] at h
  · rintro ⟨hkind, hup⟩
    simp [SchedCore.resolve, hkind, hup, SchedCore.timerIsCurrent]

/-- A moment sets or cancels a timer of a node. -/
def Moment.Rearms (m : Moment N) (node : NodeId) (timer : N.Timer) : Prop :=
  (∃ after, m.act = .setTimer node timer after) ∨ m.act = .cancelTimer node timer

theorem timerKey_inj (hdebug : Function.Injective N.debug) {node node' : NodeId}
    {timer timer' : N.Timer} :
    SchedCore.timerKey node' timer' = SchedCore.timerKey node timer ↔
      node' = node ∧ timer' = timer := by
  constructor
  · intro h
    obtain ⟨hid, htimer⟩ := Prod.mk.inj h
    exact ⟨NodeId.eq_of_toNat_eq (congrArg UInt64.toNat hid), hdebug htimer⟩
  · rintro ⟨rfl, rfl⟩
    rfl

/-- Timers are told apart by their debug forms. -/
theorem Moment.touches_eq_false (hdebug : Function.Injective N.debug) {m : Moment N}
    {node : NodeId} {timer : N.Timer} :
    m.touches (SchedCore.timerKey node timer) = false ↔ ¬ m.Rearms node timer := by
  obtain ⟨core, act⟩ := m
  cases act with
  | send a b msg => simp [Moment.touches, Moment.Rearms]
  | take event => simp [Moment.touches, Moment.Rearms]
  | setTimer node' timer' after =>
    simp [Moment.touches, Moment.Rearms, timerKey_inj hdebug]
  | cancelTimer node' timer' =>
    simp [Moment.touches, Moment.Rearms, timerKey_inj hdebug]

/-- The timers of a run: a timer that fires does so at its due time for its last arming, so it was
neither armed again nor cancelled since, and it has not fired since. -/
def TimersTraced (log : List (Moment N)) : Prop :=
  ∀ k event node timer, FiresAt log k event node timer →
    ∃ i < k, ∃ armed after, log[i]? = some ⟨armed, .setTimer node timer after⟩ ∧
      addDuration armed.now after = .ok event.fireAt ∧
      ∀ (j : ℕ) (m : Moment N), i < j → j < k → log[j]? = some m →
        ¬ m.Rearms node timer ∧ ∀ event', ¬ FiresAt log j event' node timer

/-- Two firings for one arming are one. -/
theorem Course.armed_once (c : Course N data seed) {k k' : ℕ}
    {core core' : SchedCore N} {event event' : Scheduled N}
    (hk : c.moments[k]? = some ⟨core, .take event⟩)
    (hk' : c.moments[k']? = some ⟨core', .take event'⟩) (hseq : event.seq = event'.seq)
    (hlt : k < k') : False := by
  have hinv := (c.timed_at hk').queue
  have htaken : event ∈ takenIn (c.moments.take k') := mem_takenIn_take hk hlt
  have hqueued : event' ∈ core'.queue.toList := c.queued_at hk'
  have hnodup := hinv.accounted.nodup_iff.mpr List.nodup_range
  rw [List.map_append, List.nodup_append] at hnodup
  exact hnodup.2.2 _ (List.mem_map_of_mem htaken) _ (List.mem_map_of_mem hqueued) hseq

/-- The timers of every run are traced, whether or not it comes to its end. Assumes: debug forms
tell the timers apart. -/
theorem Course.timersTraced (c : Course N data seed) (hdebug : Function.Injective N.debug) :
    TimersTraced c.moments := by
  -- The arming of a firing, with nothing since.
  have hfires {k : ℕ} {event : Scheduled N} {node : NodeId} {timer : N.Timer}
      (h : FiresAt c.moments k event node timer) : ∃ i < k, ∃ armed after,
        c.moments[i]? = some ⟨armed, .setTimer node timer after⟩ ∧
        addDuration armed.now after = .ok event.fireAt ∧ event.seq = armed.seq ∧
        ∀ (j : ℕ) (m : Moment N), i < j → j < k → c.moments[j]? = some m →
          ¬ m.Rearms node timer := by
    obtain ⟨core, hk, hresolve⟩ := h
    obtain ⟨hkind, -⟩ := resolve_eq_timer.mp hresolve
    obtain ⟨i, hik, ⟨armed, act⟩, hi, harmed⟩ := c.armed_of_taken hk hkind
    obtain ⟨node', timer', after, rfl, hsum, hseq, hkind'⟩ := Moment.armed_eq_some.mp harmed
    obtain ⟨rfl, rfl, hgen⟩ := EventKind.timer.inj (hkind.symm.trans hkind')
    refine ⟨i, hik, armed, after, hi, hsum, hseq, fun j m hij hjk hj ↦ ?_⟩
    exact (Moment.touches_eq_false hdebug).mp ((c.current_iff hi hk hik).mp hgen j m hij hjk hj)
  intro k event node timer h
  obtain ⟨i, hik, armed, after, hi, hsum, hseq, hsince⟩ := hfires h
  refine ⟨i, hik, armed, after, hi, hsum, fun j m hij hjk hj ↦
    ⟨hsince j m hij hjk hj, fun event' h' ↦ ?_⟩⟩
  -- A firing in between would be for the same arming.
  obtain ⟨i', hij', armed', after', hi', -, hseq', hsince'⟩ := hfires h'
  obtain rfl : i' = i := by
    rcases lt_trichotomy i' i with hlt | heq | hgt
    · exact absurd (.inl ⟨after, rfl⟩) (hsince' i _ hlt hij hi)
    · exact heq
    · exact absurd (.inl ⟨after', rfl⟩) (hsince i' _ hgt (hij'.trans hjk) hi')
  rw [hi] at hi'
  obtain ⟨rfl, -⟩ := Moment.mk.inj (Option.some.inj hi')
  obtain ⟨core, hk, -⟩ := h
  obtain ⟨core', hj', -⟩ := h'
  exact c.armed_once hj' hk (hseq'.trans hseq.symm) hjk

/-- The timers are traced up to every state that a run reaches. Assumes: debug forms tell the timers
apart. -/
theorem Arrives.timersTraced {prepared : SchedCore N} {started state : RunState N}
    {log : List (Moment N)} (h : Arrives codec ops prepared started log state)
    (hprepare : prepareCore N data seed = .ok prepared)
    (hstart : startRun codec ops prepared = .ok started) (hdebug : Function.Injective N.debug) :
    TimersTraced log := (h.course hprepare hstart).timersTraced hdebug

end Courses

section Executions

variable {data : PlanData} {workload : Option Strategy} {seed : Seed}

/-- A firing armed below the horizon is taken, after it was armed. -/
theorem Execution.taken_of_armed (e : Execution N data workload codec seed) {i : ℕ}
    {m : Moment N} {event : Scheduled N} (hi : e.moments[i]? = some m)
    (harmed : m.armed = some event) (hbelow : event.fireAt < e.final.core.horizon) :
    ∃ k > i, ∃ core, e.moments[k]? = some ⟨core, .take event⟩ := by
  obtain ⟨node, timer, after, hact, hsum, hseq, hkind⟩ := Moment.armed_eq_some.mp harmed
  obtain ⟨-, core', hleads, hrest⟩ := e.moments_steps.through hi
  rw [Moment.Leads, hact] at hleads
  obtain ⟨fireAt, hsum', rfl⟩ := armTimer_eq_ok hleads
  have hqueued : event ∈ ((m.core.cancelTimer node timer).enqueue fireAt (.timer node timer
      (m.core.timerGen (SchedCore.timerKey node timer) + 1))).queue.toList := by
    refine PriorityQueue.mem_push.mpr (.inl ?_)
    obtain ⟨at', seq, kind⟩ := event
    obtain rfl : at' = fireAt := Except.ok.inj (hsum.symm.trans hsum')
    obtain rfl : seq = m.core.seq := hseq
    obtain rfl := hkind
    rfl
  rcases hrest.invariant
    (P := fun log core ↦ event ∈ core.queue.toList ∨ event ∈ takenIn log)
    (fun _ _ hstep ↦ hstep.kept event) (.inl hqueued) with hleft | htaken
  · obtain ⟨hstops, -⟩ := e.loop.stops
    rw [hstops.keeps.1] at hbelow
    exact absurd (hstops.horizon_le.1 event hleft) (not_le.mpr hbelow)
  · obtain ⟨⟨core, act⟩, hm, rfl⟩ := mem_takenIn.mp htaken
    obtain ⟨k, hk⟩ := List.mem_iff_getElem?.mp hm
    refine ⟨k, ?_, core, hk⟩
    by_contra hle
    rcases (not_lt.mp hle).lt_or_eq with hlt | rfl
    · have hold : event ∈ takenIn (e.moments.take i) := mem_takenIn_take hk hlt
      have hseq' := (e.course.timed_at hi).queue.seq_lt (List.mem_append_left _ hold)
      exact absurd hseq' (hseq ▸ lt_irrefl _)
    · rw [hi] at hk
      obtain rfl := Option.some.inj hk
      cases hact

/-- The timers of an execution. A timer that fires does so at its due time for its last arming, and
once. And a timer that is armed with a due time below the horizon is reached at that time, and fires
unless it was armed again or cancelled before it was reached or its node is crashed then. -/
structure TimersKept (e : Execution N data workload codec seed) : Prop where
  fires : TimersTraced e.moments
  expires : ∀ (i : ℕ) armed node timer after due,
    e.moments[i]? = some ⟨armed, .setTimer node timer after⟩ →
    addDuration armed.now after = .ok due → due < e.final.core.horizon →
      ∃ k > i, ∃ core event, e.moments[k]? = some ⟨core, .take event⟩ ∧ event.fireAt = due ∧
        Moment.armed ⟨armed, .setTimer node timer after⟩ = some event ∧
        ((∀ (j : ℕ) (m : Moment N), i < j → j < k → e.moments[j]? = some m →
          ¬ m.Rearms node timer) → node ∉ core.crashed → FiresAt e.moments k event node timer)

theorem Execution.timersKept (e : Execution N data workload codec seed)
    (hdebug : Function.Injective N.debug) : TimersKept e := by
  refine ⟨e.course.timersTraced hdebug, fun i armed node timer after due hi hsum hbelow ↦ ?_⟩
  have harmed : Moment.armed ⟨armed, .setTimer node timer after⟩ =
      some ⟨due, armed.seq,
        .timer node timer (armed.timerGen (SchedCore.timerKey node timer) + 1)⟩ :=
    Moment.armed_eq_some.mpr ⟨node, timer, after, rfl, hsum, rfl, rfl⟩
  obtain ⟨k, hik, core, hk⟩ := e.taken_of_armed hi harmed hbelow
  refine ⟨k, hik, core, _, hk, rfl, harmed, fun hsince hup ↦ ⟨core, hk, ?_⟩⟩
  refine resolve_eq_timer.mpr ⟨?_, hup⟩
  rw [(e.course.current_iff hi hk hik).mpr fun j m hij hjk hj ↦
    (Moment.touches_eq_false hdebug).mpr (hsince j m hij hjk hj)]

/-- In every run whose loop ends the timers are kept. Assumes: debug forms tell the timers apart. -/
theorem runDeterministic_timersKept {fuel : ℕ} {nodeDef : Option NodeDef} {run : TypedRun N}
    (hdebug : Function.Injective N.debug)
    (h : runDeterministic fuel data nodeDef workload codec seed = .ok (.ok run)) :
    ∃ e : Execution N data workload codec seed, e.result = run ∧ TimersKept e := by
  obtain ⟨e, he⟩ := exists_execution h
  exact ⟨e, he, e.timersKept hdebug⟩

/-- Every timer that is neither armed again nor cancelled before its due time fires, when that is
below the horizon and its node is not crashed when the event is reached. -/
def TimersFire (e : Execution N data workload codec seed) : Prop :=
  ∀ (i : ℕ) armed node timer after due,
    e.moments[i]? = some ⟨armed, .setTimer node timer after⟩ →
    addDuration armed.now after = .ok due → due < e.final.core.horizon →
    (∀ (j : ℕ) (m : Moment N), i < j → e.moments[j]? = some m → m.Rearms node timer →
      due ≤ m.core.now) →
    (∀ (k : ℕ) core event, e.moments[k]? = some ⟨core, .take event⟩ →
      Moment.armed ⟨armed, .setTimer node timer after⟩ = some event → node ∉ core.crashed) →
      ∃ k > i, ∃ event, FiresAt e.moments k event node timer

end Executions

/-! ### Two timers due at one time -/

/-- A node that sets two timers for the same time. The first to fire cancels the second. -/
def alarm : Node where
  State := Unit
  Msg := Unit
  Timer := Bool
  Op := Unit
  Response := Unit
  default := ()
  debug timer := if timer then "true" else "false"
  onStart _ := .setTimer true (.fromMillis 1) (.setTimer false (.fromMillis 1) (.done ()))
  onMsg _ _ _ := .done ()
  onTimer _ _ := .cancelTimer false (.done ())
  onClientOp _ _ _ := .done ((), .done ())

theorem alarm_debug : Function.Injective alarm.debug := by
  rintro (_ | _) (_ | _) h
  · rfl
  · exact absurd h (by decide)
  · exact absurd h (by decide)
  · rfl

/-- One alarm, with no operation and no fault. -/
def alarmPlan : PlanData := ⟨1, none, none, 1, none⟩

/-- What a moment does to the timers of the alarm: the timer that it sets, the one that it cancels
and the one that fires; and the time and the crashed nodes. -/
structure AlarmStep where
  sets : Option (Bool × Duration)
  cancels : Option Bool
  fires : Option Bool
  now : Duration
  crashed : List NodeId
  deriving DecidableEq

/-- A moment of the alarm, as its timers see it. -/
def Moment.alarmed (m : Moment alarm) : AlarmStep where
  sets := match m.act with
    | .setTimer _ timer after => some (timer, after)
    | _ => none
  cancels := match m.act with
    | .cancelTimer _ timer => some timer
    | _ => none
  fires := match m.taken.bind fun event ↦ (m.core.resolve event).1 with
    | some (.timer _ timer) => some timer
    | _ => none
  now := m.core.now
  crashed := m.core.crashed

theorem Moment.alarmed_fires {m : Moment alarm} {event : Scheduled alarm} {node : NodeId}
    {timer : Bool} (hact : m.act = .take event)
    (h : (m.core.resolve event).1 = some (.timer node timer)) : m.alarmed.fires = some timer := by
  simp only [Moment.alarmed, Moment.taken_eq_some.mpr hact, Option.bind_some, h]

theorem Moment.alarmed_rearms {m : Moment alarm} {node : NodeId} {timer : Bool}
    (h : m.Rearms node timer) :
    (∃ after, m.alarmed.sets = some (timer, after)) ∨ m.alarmed.cancels = some timer := by
  rcases h with ⟨after, hact⟩ | hact
  · exact .inl ⟨after, by simp only [Moment.alarmed, hact]⟩
  · exact .inr (by simp only [Moment.alarmed, hact])

/-- The run of the alarm: both timers are set, the first fires and cancels the second, and the event
of the second is skipped. -/
def alarmSteps : List AlarmStep :=
  [⟨some (true, .fromMillis 1), none, none, .zero, []⟩,
    ⟨some (false, .fromMillis 1), none, none, .zero, []⟩,
    ⟨none, none, some true, .zero, []⟩,
    ⟨none, some false, none, .fromMillis 1, []⟩,
    ⟨none, none, none, .fromMillis 1, []⟩]

/-- The second timer is cancelled at its due time and does not fire. -/
theorem simultaneous_not_timersFire :
    ∃ run, runDeterministic 8 alarmPlan none none none ⟨0⟩ = .ok (.ok run) ∧
      ∃ e : Execution alarm alarmPlan none none ⟨0⟩, e.result = run ∧ ¬ TimersFire e := by
  obtain ⟨run, hrun⟩ := exists_run_of_isSome (N := alarm)
    (x := runDeterministic 8 alarmPlan none none none ⟨0⟩) (by decide +kernel)
  obtain ⟨e, he⟩ := exists_execution hrun
  refine ⟨run, hrun, e, he, fun hfire ↦ ?_⟩
  have hsteps : e.moments.map Moment.alarmed = alarmSteps :=
    e.of_compute (f := fun e ↦ e.moments.map Moment.alarmed) 8 (by decide +kernel)
  have hbelow : Duration.fromMillis 1 < e.final.core.horizon :=
    of_decide_eq_true (e.of_compute
      (f := fun e ↦ decide (Duration.fromMillis 1 < e.final.core.horizon)) 8
      (by decide +kernel))
  have hat (k : ℕ) : alarmSteps[k]? = e.moments[k]?.map Moment.alarmed := by
    rw [← hsteps, List.getElem?_map]
  have hmem {k : ℕ} {m : Moment alarm} (hk : e.moments[k]? = some m) : m.alarmed ∈ alarmSteps :=
    List.mem_of_getElem? (by rw [hat, hk, Option.map_some])
  obtain ⟨m, hm, hset⟩ := Option.map_eq_some_iff.mp (hat 1).symm
  obtain ⟨armed, act⟩ := m
  obtain ⟨node, rfl⟩ : ∃ node, act = .setTimer node false (.fromMillis 1) := by
    have hsets := congrArg AlarmStep.sets hset
    cases act with
    | setTimer node timer after =>
      obtain ⟨rfl, rfl⟩ := Prod.mk.inj (Option.some.inj hsets)
      exact ⟨node, rfl⟩
    | _ => cases hsets
  have hnow : armed.now = .zero := congrArg AlarmStep.now hset
  -- After the second timer was set, it is only touched at its due time.
  have hlate (j : ℕ) (m : Moment alarm) (hj : 1 < j) (hm : e.moments[j]? = some m)
      (hrearms : m.Rearms node false) : Duration.fromMillis 1 ≤ m.core.now := by
    have hrest : ∀ step ∈ alarmSteps.drop 2, step.sets = none ∧
        (step.cancels = some false → step.now = .fromMillis 1) := by decide +kernel
    have hin : m.alarmed ∈ alarmSteps.drop 2 := by
      refine List.mem_of_getElem? (i := j - 2) ?_
      rw [List.getElem?_drop, Nat.add_sub_cancel' hj, hat, hm, Option.map_some]
    obtain ⟨hsets, hcancels⟩ := hrest _ hin
    rcases Moment.alarmed_rearms hrearms with ⟨after, hagain⟩ | hcancel
    · rw [hsets] at hagain
      cases hagain
    · exact (hcancels hcancel).ge
  have hup (k : ℕ) (core : SchedCore alarm) (event : Scheduled alarm)
      (hk : e.moments[k]? = some ⟨core, .take event⟩) : node ∉ core.crashed := by
    have hnil : ∀ step ∈ alarmSteps, step.crashed = [] := by decide
    have hcrashed : core.crashed = [] := hnil _ (hmem hk)
    rw [hcrashed]
    exact List.not_mem_nil
  have hdue : addDuration armed.now (.fromMillis 1) = .ok (.fromMillis 1) := by
    rw [hnow]
    decide +kernel
  obtain ⟨k, -, event, core, hk, hresolve⟩ := hfire 1 armed node false _ _ hm hdue hbelow hlate
    fun k core event hk _ ↦ hup k core event hk
  have hnone : ∀ step ∈ alarmSteps, step.fires ≠ some false := by decide
  exact hnone _ (hmem hk) (Moment.alarmed_fires rfl hresolve)

/-- The timers of the alarm are kept. -/
theorem simultaneous_timersKept :
    ∃ run, runDeterministic 8 alarmPlan none none none ⟨0⟩ = .ok (.ok run) ∧
      ∃ e : Execution alarm alarmPlan none none ⟨0⟩, e.result = run ∧ TimersKept e := by
  obtain ⟨run, hrun⟩ := exists_run_of_isSome (N := alarm)
    (x := runDeterministic 8 alarmPlan none none none ⟨0⟩) (by decide +kernel)
  exact ⟨run, hrun, runDeterministic_timersKept alarm_debug hrun⟩

end Propsim.Simulator
