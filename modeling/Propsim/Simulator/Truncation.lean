import Propsim.Simulator.Rerun

/-!
# Removing the last operation of a stream

A run on a stream and a run on the stream without its last operation record the same history up to
the Invoke of that operation. From the moment it is scheduled the two queues differ: the operation
is in one of them, and the later sequence numbers of that one are larger by one. A view that leaves
the operation out (`onlyIndex`) sees the same future in both, so the two runs stay together until it
is dispatched (`Trails.loop`), and from then on each only adds to its history
(`runDeterministic_truncated`).
-/

set_option autoImplicit false
set_option relaxedAutoImplicit false

namespace Propsim.Simulator

open Foundation Interchange Propsim.Core

variable {N : Node} {codec : Option (ClientCodec N)} {ops ops' : List FrozenOp} {last : FrozenOp}
  {hides : Hides}

/-! ### The history grows -/

/-- A core has recorded at least what another has. -/
def Grows (core core' : SchedCore N) : Prop := core.history.entries <+: core'.history.entries

theorem Grows.trans {a b c : SchedCore N} (h : Grows a b) (h' : Grows b c) : Grows a c :=
  List.IsPrefix.trans h h'

theorem grows_of_eq {core core' : SchedCore N} (h : core'.history = core.history) :
    Grows core core' :=
  ⟨[], by rw [h, List.append_nil]⟩

/-- What is recorded at a position stays there. -/
theorem Grows.getElem? {core core' : SchedCore N} (h : Grows core core') {k : ℕ} {entry : OpEntry}
    (hentry : core.history.entries[k]? = some entry) :
    core'.history.entries[k]? = some entry := by
  obtain ⟨later, hlater⟩ := h
  rw [← hlater, List.getElem?_append_left (List.getElem?_eq_some_iff.mp hentry).1]
  exact hentry

theorem grows_openOp (core : SchedCore N) (process : ProcessId) (f : Function) (value : Value) :
    Grows core (core.openOp process f value).2 := List.prefix_append _ _

theorem grows_closeOp (core : SchedCore N) (token : OpToken) (kind : OpKind) (value : Value) :
    Grows core (core.closeOp token kind value) := by
  unfold SchedCore.closeOp
  split
  · exact grows_of_eq rfl
  · exact List.prefix_append _ _

theorem grows_closeAll (core : SchedCore N) (tokens : List ℕ) :
    Grows core (core.closeAll tokens) := by
  induction tokens generalizing core with
  | nil => exact grows_of_eq rfl
  | cons token rest ih => exact (grows_closeOp core ⟨token⟩ .info .nil).trans (ih _)

theorem CoreSteps.grows {core core' : SchedCore N} (h : CoreSteps core core') :
    Grows core core' := by
  refine h.invariant (P := Grows core) (fun c c' hc hstep ↦ hc.trans ?_) (grows_of_eq rfl)
  cases hstep with
  | quiet => exact grows_of_eq rfl
  | enqueue => exact grows_of_eq rfl
  | close token value _ => exact grows_closeOp c token _ value

theorem grows_dispatch {core core' : SchedCore N} {nodes nodes' : List (Option N.State)}
    {popped : PoppedEvent N} (h : dispatch codec ops core nodes popped = .ok (core', nodes')) :
    Grows core core' := by
  rcases dispatch_steps h with ⟨hsteps, -⟩ | ⟨process, index, op, f, -, -, hsteps⟩
  · exact hsteps.grows
  · exact (grows_openOp core _ f op.op).trans hsteps.grows

theorem grows_resolve {core core' : SchedCore N} {event : Scheduled N}
    {popped : Option (PoppedEvent N)} (h : core.resolve event = (popped, core')) :
    Grows core core' := by
  cases resolves_of_resolve h with
  | skipped => exact grows_of_eq rfl
  | deliver => exact grows_of_eq rfl
  | timer => exact grows_of_eq rfl
  | clientOp => exact grows_of_eq rfl
  | @fault action hkind =>
    cases action with
    | partition => exact grows_of_eq rfl
    | healAll => exact grows_of_eq rfl
    | restart => exact grows_of_eq rfl
    | crash n =>
      refine Grows.trans (grows_of_eq ?_) (grows_closeAll _ _)
      split_ifs <;> rfl

/-- A turn only adds to the history. -/
theorem Turn.grows {state next : RunState N} {event : Scheduled N}
    (h : Turn codec ops state event next) : Grows state.core next.core := by
  cases h with
  | skip hpop hbelow hresolve =>
    have hresolved := grows_resolve hresolve
    exact hresolved
  | fire hpop hbelow hresolve hhandle =>
    have hresolved := grows_resolve hresolve
    obtain ⟨core, nodes, pumped, hdispatch, hpump, rfl⟩ := exists_pump_of_handle hhandle
    have hpumped : pumped.core.history = core.history := by rw [(pumpClientOps_frame hpump).2]
    exact (hresolved.trans (grows_dispatch hdispatch)).trans (grows_of_eq hpumped)

/-- A loop only adds to the history, by induction on its turns. -/
theorem Loop.grows {state final : RunState N} {steps : List (Scheduled N × RunState N)}
    (h : Loop codec ops state steps final) : Grows state.core final.core := by
  induction h with
  | stop hstops => exact grows_of_eq (by rw [hstops.core_eq])
  | turn hturn _ ih => exact hturn.grows.trans ih

theorem invoke_openOp (core : SchedCore N) (process : ProcessId) (f : Function) (value : Value) :
    ∃ entry, (core.openOp process f value).2.history.entries[core.history.entries.length]? =
        some entry ∧ entry.kind = .invoke ∧ entry.process = process ∧ entry.value = value :=
  ⟨_, List.getElem?_concat_length, rfl, rfl, rfl⟩

/-- A turn that takes a client operation records its Invoke next. -/
theorem Turn.invoke_next {state next : RunState N} {event : Scheduled N}
    (h : Turn codec ops state event next) {process : NodeId} {index : ℕ}
    (hkind : event.kind = .clientOp process index) {op : FrozenOp} (hop : ops[index]? = some op) :
    ∃ entry, next.core.history.entries[state.core.history.entries.length]? = some entry ∧
      entry.kind = .invoke ∧ entry.process = ⟨process.id⟩ ∧ entry.value = op.op := by
  obtain ⟨queue, core, nodes, hdispatch, hhistory⟩ := h.dispatchClientOp hkind hop
  obtain ⟨f, hsteps⟩ := dispatchClientOp_steps hdispatch
  obtain ⟨entry, hentry, hinvoke⟩ := invoke_openOp
    { state.core with queue := queue, now := event.fireAt } ⟨process.id⟩ f op.op
  refine ⟨entry, ?_, hinvoke⟩
  rw [hhistory]
  exact hsteps.grows.getElem? hentry

/-! ### Queues in which nothing is left out -/

/-- No queued event is left out of the view. -/
def SchedCore.Shown (hides : Hides) (core : SchedCore N) : Prop :=
  ∀ event ∈ core.queue.toList, event.live hides core.horizon = true

section Shown

variable {core core' : SchedCore N}

theorem SchedCore.Shown.congr (h : core.Shown hides) (hsame : SameQueue core core') :
    core'.Shown hides := by
  rw [Shown, hsame.queue_eq, hsame.horizon_eq]
  exact h

theorem SchedCore.Shown.enqueue (h : core.Shown hides) {fireAt : Duration} {kind : EventKind N}
    (hkind : kind.hidden hides core.horizon fireAt = false) :
    (core.enqueue fireAt kind).Shown hides := by
  intro event hevent
  rcases PriorityQueue.mem_push.mp hevent with rfl | hevent
  · change (!kind.hidden hides core.horizon fireAt) = true
    rw [hkind]
    rfl
  · exact h event hevent

theorem SchedCore.Shown.coreSteps (h : core.Shown hides) (hsteps : CoreSteps core core') :
    core'.Shown hides := by
  refine hsteps.invariant (fun c c' hc hstep ↦ ?_) h
  cases hstep with
  | quiet => exact hc
  | enqueue fireAt kind _ hkind =>
    exact hc.enqueue (EventKind.hidden_of_not_clientOp _ _ hkind.isClientOp)
  | close token value _ => exact hc.congr (sameQueue_closeOp c token _ value)

theorem SchedCore.Shown.dispatch (h : core.Shown hides) {nodes nodes' : List (Option N.State)}
    {popped : PoppedEvent N}
    (hdispatch : Simulator.dispatch codec ops core nodes popped = .ok (core', nodes')) :
    core'.Shown hides := by
  rcases dispatch_steps hdispatch with ⟨hsteps, -⟩ | ⟨process, index, op, f, -, -, hsteps⟩
  · exact h.coreSteps hsteps
  · exact SchedCore.Shown.coreSteps (h.congr (sameQueue_openOp _ _ _ _)) hsteps

theorem SchedCore.Shown.resolve (h : core.Shown hides) {event : Scheduled N}
    {queue : PriorityQueue Scheduled.key} (hpop : core.queue.pop = some (event, queue))
    {popped : Option (PoppedEvent N)}
    (hresolve : SchedCore.resolve { core with queue := queue } event = (popped, core')) :
    core'.Shown hides := by
  have htaken : SchedCore.Shown hides { core with queue := queue, now := event.fireAt } := by
    intro b hb
    refine h b ?_
    exact PriorityQueue.mem_of_mem_pop hpop hb
  exact htaken.congr (sameQueue_resolve hresolve)

end Shown

/-! ### Two runs, one without the last operation -/

/-- A view that leaves out the operation at one position of the stream. -/
def onlyIndex (n : ℕ) : Hides := fun _ _ index ↦ decide (index = n)

/-- What a process has left in the two runs: the same and the last operation after it, until that is
scheduled, and then nothing. -/
def LeavesLast (n : ℕ) (left left' : List ℕ) (scheduled scheduled' : ℕ) : Prop :=
  (left = left' ∨ left = left' ++ [n]) ∧ scheduled = scheduled' ∨ left = [] ∧ left' = []

/-- Two states that differ in the last operation only: the first run has it still to issue, or holds
it in its queue. -/
structure Trails (ops : List FrozenOp) (last : FrozenOp) (state state' : RunState N) : Prop where
  view : SameView (onlyIndex ops.length) (ops ++ [last]) ops state.core state'.core
  nodes : state'.nodes = state.nodes
  slots : state.nodes.length = state.core.nodeCount.toNat
  left : ∀ p, LeavesLast ops.length (state.perProcess p) (state'.perProcess p) (state.scheduled p)
    (state'.scheduled p)
  before : ∀ p, ∀ index ∈ state'.perProcess p, index < ops.length
  shown : state'.core.Shown (onlyIndex ops.length)

namespace Trails

variable {state state' next : RunState N} {p : ℕ}

theorem closedFor_eq (h : Trails ops last state state') (q : ProcessId) :
    state'.core.closedFor q = state.core.closedFor q := by
  rw [h.view.core_eq]
  rfl

/-- Both runs schedule the next operation of a process. -/
theorem issue_both (h : Trails ops last state state') {index : ℕ} {rest rest' : List ℕ}
    {fireAt : Duration} (hfree : ¬state.core.closedFor ⟨.ofNat p⟩ < state.scheduled p)
    (hstream' : state'.perProcess p = index :: rest')
    (hscheduled : state.scheduled p = state'.scheduled p)
    (hrest : rest = rest' ∨ rest = rest' ++ [ops.length])
    (hsum : addDuration state.core.now (.fromMillis 1) = .ok fireAt) :
    ∃ next', pumpProcess state' p = .ok next' ∧
      Trails ops last { state with
        perProcess := Function.update state.perProcess p rest
        scheduled := Function.update state.scheduled p (state.scheduled p + 1)
        core := state.core.scheduleClientOp fireAt ⟨.ofNat p⟩ index } next' := by
  have hnow : state'.core.now = state.core.now := by rw [h.view.core_eq]
  have hbefore := h.before p
  rw [hstream', List.forall_mem_cons] at hbefore
  have hpump : pumpProcess state' p = .ok { state' with
      perProcess := Function.update state'.perProcess p rest'
      scheduled := Function.update state'.scheduled p (state'.scheduled p + 1)
      core := state'.core.scheduleClientOp fireAt ⟨.ofNat p⟩ index } := by
    rw [pumpProcess, h.closedFor_eq, ← hscheduled, if_neg hfree]
    simp only [hstream', hnow, hsum]
  have hviewed : (EventKind.clientOp ⟨.ofNat p⟩ index : EventKind N).viewed ops
      state.core.nodeCount.toNat =
        (EventKind.clientOp ⟨.ofNat p⟩ index).viewed (ops ++ [last])
          state.core.nodeCount.toNat := by
    rw [EventKind.viewed, EventKind.viewed, List.getElem?_append_left hbefore.1]
  have hshown (horizon : Duration) : (EventKind.clientOp ⟨.ofNat p⟩ index : EventKind N).hidden
      (onlyIndex ops.length) horizon fireAt = false := decide_eq_false hbefore.1.ne
  refine ⟨_, hpump, h.view.enqueue hviewed (hshown _) (hshown _), h.nodes, h.slots, fun q ↦ ?_,
    fun q ↦ ?_, h.shown.enqueue (hshown _)⟩
  · change LeavesLast _ (Function.update state.perProcess p rest q)
      (Function.update state'.perProcess p rest' q)
      (Function.update state.scheduled p (state.scheduled p + 1) q)
      (Function.update state'.scheduled p (state'.scheduled p + 1) q)
    by_cases hq : q = p
    · subst hq
      simp only [Function.update_self]
      exact .inl ⟨hrest, by rw [hscheduled]⟩
    · simp only [Function.update_of_ne hq]
      exact h.left q
  · change ∀ i ∈ Function.update state'.perProcess p rest' q, i < ops.length
    by_cases hq : q = p
    · subst hq
      rw [Function.update_self]
      exact hbefore.2
    · rw [Function.update_of_ne hq]
      exact h.before q

/-- The first run schedules the last operation, and the second has nothing left for its process. -/
theorem issue_last (h : Trails ops last state state') {fireAt : Duration}
    (hstream' : state'.perProcess p = []) :
    Trails ops last { state with
      perProcess := Function.update state.perProcess p []
      scheduled := Function.update state.scheduled p (state.scheduled p + 1)
      core := state.core.scheduleClientOp fireAt ⟨.ofNat p⟩ ops.length } state' := by
  refine ⟨h.view.enqueue_hidden (decide_eq_true rfl), h.nodes, h.slots, fun q ↦ ?_, h.before,
    h.shown⟩
  change LeavesLast _ (Function.update state.perProcess p [] q) (state'.perProcess q)
    (Function.update state.scheduled p (state.scheduled p + 1) q) (state'.scheduled q)
  by_cases hq : q = p
  · subst hq
    rw [Function.update_self, hstream']
    exact .inr ⟨rfl, rfl⟩
  · simp only [Function.update_of_ne hq]
    exact h.left q

/-- Pumping a process in both runs. -/
theorem pumpProcess (h : Trails ops last state state')
    (hpump : Simulator.pumpProcess state p = .ok next) :
    ∃ next', Simulator.pumpProcess state' p = .ok next' ∧ Trails ops last next next' := by
  cases pumps_of_pumpProcess hpump with
  | busy hbusy =>
    refine ⟨state', ?_, h⟩
    rcases h.left p with ⟨-, hscheduled⟩ | ⟨-, hnil⟩
    · rw [Simulator.pumpProcess, h.closedFor_eq, ← hscheduled, if_pos hbusy]
    · exact InStep.pump_drained hnil
  | drained hfree hstream =>
    refine ⟨state', InStep.pump_drained ?_, h⟩
    rcases h.left p with ⟨heq | heq, -⟩ | ⟨-, hnil⟩
    · exact heq.symm.trans hstream
    · simp [hstream] at heq
    · exact hnil
  | @issue index rest fireAt hfree hstream hsum =>
    rcases h.left p with ⟨heq, hscheduled⟩ | ⟨hnil, -⟩
    · rw [hstream] at heq
      rcases heq with heq | heq
      · exact h.issue_both hfree heq.symm hscheduled (.inl rfl) hsum
      cases hstream' : state'.perProcess p with
      | nil =>
        -- The operation is the last one, which only the first run has.
        rw [hstream', List.nil_append] at heq
        obtain ⟨rfl, rfl⟩ := List.cons.inj heq
        exact ⟨state', InStep.pump_drained hstream', h.issue_last hstream'⟩
      | cons index' rest' =>
        rw [hstream', List.cons_append] at heq
        obtain ⟨rfl, rfl⟩ := List.cons.inj heq
        exact h.issue_both hfree hstream' hscheduled (.inr rfl) hsum
    · rw [hstream] at hnil
      cases hnil

/-- Pumping several processes in both runs. -/
theorem pumpAll (processes : List ℕ) (h : Trails ops last state state')
    (hpump : processes.foldlM Simulator.pumpProcess state = .ok next) :
    ∃ next', processes.foldlM Simulator.pumpProcess state' = .ok next' ∧
      Trails ops last next next' := by
  induction processes generalizing state state' with
  | nil =>
    rw [List.foldlM_nil, except_pure_eq_ok] at hpump
    exact ⟨state', rfl, hpump ▸ h⟩
  | cons p rest ih =>
    rw [List.foldlM_cons, except_bind_eq_ok] at hpump
    obtain ⟨mid, hfirst, hrest⟩ := hpump
    obtain ⟨mid', hfirst', hmid⟩ := h.pumpProcess hfirst
    obtain ⟨next', hrest', hnext⟩ := ih hmid hrest
    exact ⟨next', by rw [List.foldlM_cons, except_bind_eq_ok]; exact ⟨mid', hfirst', hrest'⟩, hnext⟩

theorem pumpClientOps (h : Trails ops last state state')
    (hpump : Simulator.pumpClientOps state = .ok next) :
    ∃ next', Simulator.pumpClientOps state' = .ok next' ∧ Trails ops last next next' := by
  obtain ⟨next', hpump', hnext⟩ := h.pumpAll _ hpump
  refine ⟨next', ?_, hnext⟩
  have hcount : state'.core.nodeCount = state.core.nodeCount := by rw [h.view.core_eq]
  rw [Simulator.pumpClientOps, hcount]
  exact hpump'

/-- A turn of the first run that does not take the last operation is a turn of the second. -/
theorem turn (h : Trails ops last state state') {event : Scheduled N}
    (hturn : Turn codec (ops ++ [last]) state event next)
    (hlive : event.live (onlyIndex ops.length) state.core.horizon = true) :
    ∃ event' next', Turn codec ops state' event' next' ∧ Trails ops last next next' := by
  have hhorizon : state'.core.horizon = state.core.horizon := by rw [h.view.core_eq]
  have hfirst : ∀ b ∈ state'.core.queue.toList, b.fireAt ≤ event.fireAt →
      b.live (onlyIndex ops.length) state.core.horizon = true :=
    fun b hb _ ↦ hhorizon ▸ h.shown b hb
  cases hturn with
  | @skip queue core hpop hbelow hresolve =>
    obtain ⟨event', queue', popped', core', hpop', hfire, hresolve', halike, hview⟩ :=
      h.view.take hpop hlive hfirst hresolve
    cases halike with
    | same _ =>
      have hcount := (sameQueue_resolve hresolve).nodeCount_eq
      exact ⟨event', _, .skip hpop' (by rw [hhorizon, hfire]; exact hbelow) hresolve', hview,
        h.nodes, h.slots.trans (congrArg _ hcount.symm), h.left, h.before,
        h.shown.resolve hpop' hresolve'⟩
  | @fire queue core popped next hpop hbelow hresolve hhandle =>
    obtain ⟨event', queue', popped', core', hpop', hfire, hresolve', halike, hview⟩ :=
      h.view.take hpop hlive hfirst hresolve
    obtain ⟨core₁, nodes, pumped, hdispatch, hpump, rfl⟩ := exists_pump_of_handle hhandle
    obtain ⟨popped', rfl⟩ := halike.exists_some
    rw [← h.slots] at halike
    obtain ⟨core₁', hdispatch', hview₁⟩ := dispatch_sameView hview halike hdispatch
    have hcount : core₁.nodeCount = state.core.nodeCount :=
      (queueProperty_nodeCount _).dispatch hdispatch (sameQueue_resolve hresolve).nodeCount_eq
    have hdispatched : Trails ops last { state with core := core₁, nodes := nodes }
        { state' with core := core₁', nodes := nodes } :=
      ⟨hview₁, rfl, (length_dispatch hdispatch).trans (h.slots.trans (congrArg _ hcount.symm)),
        h.left, h.before, (h.shown.resolve hpop' hresolve').dispatch hdispatch'⟩
    obtain ⟨pumped', hpump', hstep⟩ := hdispatched.pumpClientOps hpump
    rw [← h.nodes] at hdispatch'
    exact ⟨event', _, .fire hpop' (by rw [hhorizon, hfire]; exact hbelow) hresolve'
      (handle_of_pump hdispatch' hpump'), hstep.view, hstep.nodes, hstep.slots, hstep.left,
      hstep.before, hstep.shown⟩

end Trails

/-! ### Loops -/

/-- A loop goes on with the turn of its state. -/
theorem Loop.of_turn {state next final : RunState N} {event : Scheduled N}
    {steps : List (Scheduled N × RunState N)} (hturn : Turn codec ops state event next)
    (h : Loop codec ops state steps final) : ∃ rest, Loop codec ops next rest final := by
  cases h with
  | stop hstops => exact absurd hturn.pop_eq hstops.not_below
  | turn hturn' hrest =>
    obtain ⟨rfl, rfl⟩ := hturn.unique hturn'
    exact ⟨_, hrest⟩

theorem live_onlyIndex {n : ℕ} {event : Scheduled N} (horizon : Duration)
    (h : event.kind.opIndex ≠ some n) : event.live (onlyIndex n) horizon = true := by
  rw [Scheduled.live, Bool.not_eq_true']
  cases hkind : event.kind with
  | clientOp process index =>
    rw [hkind] at h
    exact decide_eq_false fun heq ↦ h (congrArg some heq)
  | deliver => rfl
  | timer => rfl
  | fault => rfl

/-- How many entries a loop has recorded when it invokes the operation at a position, or at its end
when it never does. -/
def recordedBefore (index : ℕ) : RunState N → List (Scheduled N × RunState N) → ℕ
  | state, [] => state.core.history.entries.length
  | state, (event, next) :: rest =>
    if event.kind.opIndex = some index then state.core.history.entries.length
    else recordedBefore index next rest

/-- The two runs record the same up to the Invoke of the last operation, by induction on the turns
of the first. -/
theorem Trails.loop {state state' final final' : RunState N}
    {steps steps' : List (Scheduled N × RunState N)}
    (hloop : Loop codec (ops ++ [last]) state steps final)
    (hloop' : Loop codec ops state' steps' final') (h : Trails ops last state state') :
    ∃ recorded : List OpEntry, recorded.length = recordedBefore ops.length state steps ∧
      recorded <+: final.core.history.entries ∧ recorded <+: final'.core.history.entries := by
  have hhistory {s s' : RunState N} (hs : Trails ops last s s') :
      s'.core.history = s.core.history := by rw [hs.view.core_eq]
  induction hloop generalizing state' steps' with
  | @stop state core hstops =>
    refine ⟨state.core.history.entries, rfl, grows_of_eq (by rw [hstops.core_eq]), ?_⟩
    rw [← hhistory h]
    exact hloop'.grows
  | @turn state next final event steps hturn hrest ih =>
    by_cases hlast : event.kind.opIndex = some ops.length
    · refine ⟨state.core.history.entries, ?_, (Loop.turn hturn hrest).grows, ?_⟩
      · rw [recordedBefore, if_pos hlast]
      · rw [← hhistory h]
        exact hloop'.grows
    · obtain ⟨event', next', hturn', hnext⟩ := h.turn hturn (live_onlyIndex _ hlast)
      obtain ⟨rest', hrest'⟩ := hloop'.of_turn hturn'
      rw [recordedBefore, if_neg hlast]
      exact ih hrest' hnext

/-- When a loop takes an operation, the entry at that position is its Invoke. -/
theorem Loop.invoke_at {state final : RunState N} {steps : List (Scheduled N × RunState N)}
    (h : Loop codec ops state steps final) {index : ℕ} {op : FrozenOp} (hop : ops[index]? = some op)
    (htaken : ∃ event ∈ steps.map Prod.fst, event.kind.opIndex = some index) :
    ∃ entry, final.core.history.entries[recordedBefore index state steps]? = some entry ∧
      entry.kind = .invoke ∧ entry.value = op.op := by
  induction h with
  | stop => simp at htaken
  | @turn state next final event steps hturn hrest ih =>
    by_cases hfirst : event.kind.opIndex = some index
    · obtain ⟨process, hkind⟩ := exists_kind_of_opIndex hfirst
      obtain ⟨entry, hentry, hinvoke, -, hvalue⟩ := hturn.invoke_next hkind hop
      refine ⟨entry, ?_, hinvoke, hvalue⟩
      rw [recordedBefore, if_pos hfirst]
      exact hrest.grows.getElem? hentry
    · rw [recordedBefore, if_neg hfirst]
      rw [List.map_cons, List.exists_mem_cons_iff] at htaken
      exact ih (htaken.resolve_left hfirst)

/-- A loop that does not take an operation has recorded what it records at its end. -/
theorem recordedBefore_eq_of_not_taken {index : ℕ} {state final : RunState N}
    {steps : List (Scheduled N × RunState N)} (h : Loop codec ops state steps final)
    (htaken : ∀ event ∈ steps.map Prod.fst, event.kind.opIndex ≠ some index) :
    recordedBefore index state steps = final.core.history.entries.length := by
  induction h with
  | stop hstops => rw [recordedBefore, hstops.core_eq]
  | @turn state next final event steps hturn hrest ih =>
    rw [List.map_cons, List.forall_mem_cons] at htaken
    rw [recordedBefore, if_neg htaken.1]
    exact ih htaken.2

/-! ### Whole runs -/

/-- The operations of a process in a stream with one more. -/
theorem groupOps_append (ops : List FrozenOp) (last : FrozenOp) (count p : ℕ) :
    groupOps (ops ++ [last]) count p =
      groupOps ops count p ++ if last.process.id.toNat % count = p then [ops.length] else [] := by
  rw [groupOps, List.zipIdx_append, List.filter_append, List.map_append, Nat.zero_add]
  congr 1
  by_cases hp : last.process.id.toNat % count = p <;> simp [hp]

/-- Before the first operations are pumped, the two runs differ in the last operation only. -/
theorem trails_unpumped {data : PlanData} {seed : Seed} {prepared core : SchedCore N}
    {nodes : List (Option N.State)} (hprepare : prepareCore N data seed = .ok prepared)
    (hnodes : startNodes codec prepared = .ok (core, nodes)) :
    Trails ops last (unpumped (ops ++ [last]) prepared.nodeCount core nodes)
      (unpumped ops prepared.nodeCount core nodes) := by
  have hsteps := startNodes_steps hnodes
  have hqueue := (queueProperty_queueInv []).coreSteps hsteps (queueInv_prepared hprepare)
  have hcount := (queueProperty_nodeCount prepared.nodeCount).coreSteps hsteps rfl
  have hnone := isClientOp_of_startNodes hprepare hnodes
  refine ⟨.of_no_clientOp hqueue.fresh hnone, rfl, ?_, fun p ↦ .inl ⟨?_, rfl⟩,
    fun p index hindex ↦ lt_of_mem_groupOps hindex, fun event hevent ↦ ?_⟩
  · change nodes.length = core.nodeCount.toNat
    rw [hcount]
    exact length_startNodes hnodes
  · change groupOps (ops ++ [last]) _ p = groupOps ops _ p ∨
      groupOps (ops ++ [last]) _ p = groupOps ops _ p ++ [ops.length]
    rw [groupOps_append]
    split_ifs with hp
    · exact .inr rfl
    · exact .inl (List.append_nil _)
  · exact Scheduled.live_of_not_clientOp (hnone event hevent) _

section Executions

variable {data data' : PlanData} {workload workload' : Option Strategy} {seed : Seed}

/-- How many entries an execution has recorded when it invokes the operation at a position of its
stream, or when its loop ends if it never does. -/
def Execution.recordedBefore (e : Execution N data workload codec seed) (index : ℕ) : ℕ :=
  Simulator.recordedBefore index e.started e.steps

/-- What a loop has recorded when it ends is the start of the history of the run. -/
theorem Execution.grows_result (e : Execution N data workload codec seed) :
    Grows e.final.core e.final.core.forceClosePending := grows_closeAll e.final.core _

/-- Two executions whose streams differ in the last operation only have recorded the same when it is
invoked. Assumes: the plans prepare alike. -/
theorem Execution.exists_recorded (e : Execution N data workload codec seed)
    (e' : Execution N data' workload' codec seed) (hprepared : e'.prepared = e.prepared)
    (hops : resolveOps data workload seed = resolveOps data' workload' seed ++ [last]) :
    ∃ recorded : List OpEntry,
      recorded.length = e.recordedBefore (resolveOps data' workload' seed).length ∧
        recorded <+: e.result.history.entries ∧ recorded <+: e'.result.history.entries := by
  obtain ⟨core, nodes, hnodes, hpump⟩ := startRun_eq_ok.mp e.start_eq
  obtain ⟨core', nodes', hnodes', hpump'⟩ := startRun_eq_ok.mp e'.start_eq
  rw [hprepared] at hnodes' hpump'
  obtain ⟨rfl, rfl⟩ := Prod.mk.inj (Except.ok.inj (hnodes'.symm.trans hnodes))
  rw [hops] at hpump
  obtain ⟨started, hstarted, htrails⟩ := (trails_unpumped e.prepare_eq hnodes).pumpClientOps hpump
  obtain rfl := Except.ok.inj (hpump'.symm.trans hstarted)
  obtain ⟨recorded, hlength, hprefix, hprefix'⟩ := Trails.loop (hops ▸ e.loop) e'.loop htrails
  exact ⟨recorded, hlength, hprefix.trans e.grows_result, hprefix'.trans e'.grows_result⟩

variable {scenario : Scenario}

/-- A plan that is pinned to a stream. -/
def pinned (data : PlanData) (scenario : Scenario) (ops : List FrozenOp) : PlanData :=
  { data with replay := some { scenario with ops := ops } }

/-- A plan prepares alike on every stream that it is pinned to. -/
theorem prepareCore_pinned (N : Node) (data : PlanData) (scenario : Scenario)
    (ops ops' : List FrozenOp) (seed : Seed) :
    prepareCore N (pinned data scenario ops) seed =
      prepareCore N (pinned data scenario ops') seed := by
  have hhorizon : runHorizon (pinned data scenario ops) =
      runHorizon (pinned data scenario ops') := runHorizon_congr rfl
  rw [prepareCore_eq, prepareCore_eq, hhorizon]
  rfl

/-- A run on a stream and a run on the stream without its last operation record the same entries up
to the Invoke of that operation, or up to the end of the loop when it is not invoked. -/
theorem runDeterministic_truncated {fuel fuel' : ℕ} {nodeDef nodeDef' : Option NodeDef}
    {run run' : TypedRun N}
    (h : runDeterministic fuel (pinned data scenario (ops ++ [last])) nodeDef workload codec seed =
      .ok (.ok run))
    (h' : runDeterministic fuel' (pinned data scenario ops) nodeDef' workload' codec seed =
      .ok (.ok run')) :
    ∃ e : Execution N (pinned data scenario (ops ++ [last])) workload codec seed,
      e.result = run ∧
        run'.history.entries.take (e.recordedBefore ops.length) =
          run.history.entries.take (e.recordedBefore ops.length) ∧
        e.recordedBefore ops.length ≤ run.history.entries.length ∧
        e.recordedBefore ops.length ≤ run'.history.entries.length ∧
        ((∃ event ∈ e.taken, event.kind.opIndex = some ops.length) →
          ∃ entry, run.history.entries[e.recordedBefore ops.length]? = some entry ∧
            entry.kind = .invoke ∧ entry.value = last.op) ∧
        ((∀ event ∈ e.taken, event.kind.opIndex ≠ some ops.length) →
          e.recordedBefore ops.length = e.final.core.history.entries.length) := by
  obtain ⟨e, rfl⟩ := exists_execution h
  obtain ⟨e', rfl⟩ := exists_execution h'
  have hprepared : e'.prepared = e.prepared := by
    have heq := prepareCore_pinned N data scenario (ops ++ [last]) ops seed
    rw [e.prepare_eq, e'.prepare_eq] at heq
    exact (Except.ok.inj heq).symm
  have hops : resolveOps (pinned data scenario (ops ++ [last])) workload seed =
      resolveOps (pinned data scenario ops) workload' seed ++ [last] := rfl
  obtain ⟨recorded, hlength, hprefix, hprefix'⟩ := e.exists_recorded e' hprepared hops
  change recorded.length = e.recordedBefore ops.length at hlength
  refine ⟨e, rfl, ?_, ?_, ?_, fun htaken ↦ ?_, recordedBefore_eq_of_not_taken e.loop⟩
  · rw [← hlength, ← List.prefix_iff_eq_take.mp hprefix, ← List.prefix_iff_eq_take.mp hprefix']
  · exact hlength ▸ hprefix.length_le
  · exact hlength ▸ hprefix'.length_le
  · have hlast : (resolveOps (pinned data scenario (ops ++ [last])) workload seed)[ops.length]? =
        some last := List.getElem?_concat_length
    obtain ⟨entry, hentry, hinvoke⟩ := e.loop.invoke_at hlast htaken
    exact ⟨entry, e.grows_result.getElem? hentry, hinvoke⟩

/-- Two counting nodes on three operations and on the first two. -/
theorem counter_truncated :
    ∃ run run',
      runDeterministic 8 (pinned ⟨2, none, none, 1, none⟩ (.new [] .swarm)
          ([.new ⟨1⟩ .nil, .new ⟨0⟩ .nil] ++ [.new ⟨1⟩ .nil])) none none (some counterCodec) ⟨0⟩ =
        .ok (.ok run) ∧
      runDeterministic 8 (pinned ⟨2, none, none, 1, none⟩ (.new [] .swarm)
          [.new ⟨1⟩ .nil, .new ⟨0⟩ .nil]) none none (some counterCodec) ⟨0⟩ = .ok (.ok run') ∧
      run'.history.entries.take 4 = run.history.entries.take 4 := by
  obtain ⟨run, hrun⟩ := exists_run_of_isSome (N := counter)
    (x := runDeterministic 8 (pinned ⟨2, none, none, 1, none⟩ (.new [] .swarm)
      ([.new ⟨1⟩ .nil, .new ⟨0⟩ .nil] ++ [.new ⟨1⟩ .nil])) none none (some counterCodec) ⟨0⟩)
    (by decide +kernel)
  obtain ⟨run', hrun'⟩ := exists_run_of_isSome (N := counter)
    (x := runDeterministic 8 (pinned ⟨2, none, none, 1, none⟩ (.new [] .swarm)
      [.new ⟨1⟩ .nil, .new ⟨0⟩ .nil]) none none (some counterCodec) ⟨0⟩) (by decide +kernel)
  obtain ⟨e, -, htake, -⟩ := runDeterministic_truncated hrun hrun'
  have hbefore : e.recordedBefore 2 = 4 :=
    e.of_compute (f := fun e ↦ e.recordedBefore 2) 8 (by decide +kernel)
  change run'.history.entries.take (e.recordedBefore 2) =
    run.history.entries.take (e.recordedBefore 2) at htake
  rw [hbefore] at htake
  exact ⟨run, run', hrun, hrun', htake⟩

end Executions

end Propsim.Simulator
