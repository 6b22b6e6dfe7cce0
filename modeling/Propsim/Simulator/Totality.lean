import Propsim.Simulator.Asynchrony
import Propsim.Simulator.NodeTable
import Propsim.Simulator.Termination

/-!
# Runs that return

On a network that delivers at once a run may spin for ever at one instant. It does not when every
message is answered by messages of a smaller rank only: the events that a turn queues are then later
than the event that it takes, or messages of the same instant with a smaller rank
(`Turn.weights_lt`). So every run of such a node ends, on every network
(`runDeterministic_ends_of_ranked`), and it returns a history when nothing overflows and no id is
outside the cluster (`runDeterministic_returns`), which a node and the data of a plan can ensure
(`Runnable.returns`).
-/

set_option autoImplicit false
set_option relaxedAutoImplicit false

namespace Propsim.Simulator

open Foundation Interchange Propsim.Core

variable {N : Node} {codec : Option (ClientCodec N)} {ops : List FrozenOp}

/-! ### Ranked messages -/

/-- An emission sends messages below a rank only, and arms timers for positive spans. -/
def Below {Msg Timer Response : Type} (rank : Msg → ℕ) (bound : WithTop ℕ) :
    Emission Msg Timer Response → Prop
  | .send _ msg => WithTop.some (rank msg) < bound
  | .setTimer _ after => Duration.zero < after
  | .completeOp _ _ => True

/-- A message is answered by messages of a smaller rank only, and timers are armed for positive
spans. -/
structure Ranked (N : Node) (rank : N.Msg → ℕ) : Prop where
  onStart : ∀ me peers node out node', Yields me peers (N.onStart node) out node' →
    ∀ e ∈ out, Below rank ⊤ e
  onMsg : ∀ me peers node sender msg out node',
    Yields me peers (N.onMsg node sender msg) out node' → ∀ e ∈ out, Below rank (.some (rank msg)) e
  onTimer : ∀ me peers node timer out node', Yields me peers (N.onTimer node timer) out node' →
    ∀ e ∈ out, Below rank ⊤ e
  onClientOp : ∀ me peers node op token out result,
    Yields me peers (N.onClientOp node op token) out result → ∀ e ∈ out, Below rank ⊤ e

/-- The rank of what a queued event does: a message has its own, everything else is above them. -/
def EventKind.rank (rank : N.Msg → ℕ) : EventKind N → WithTop ℕ
  | .deliver _ _ msg => WithTop.some (rank msg)
  | .timer _ _ _ => ⊤
  | .clientOp _ _ => ⊤
  | .fault _ => ⊤

/-- The core is at a time, and since its queue was `base` it has only queued later events and, for
the same time, messages below a rank. -/
structure Lighter (rank : N.Msg → ℕ) (now : Duration) (bound : WithTop ℕ)
    (base : List (Scheduled N)) (core : SchedCore N) : Prop where
  now_eq : core.now = now
  added : ∃ added : List (Scheduled N), core.queue.toList.Perm (added ++ base) ∧
    ∀ event ∈ added, now < event.fireAt ∨
      event.fireAt = now ∧ event.kind.rank rank < bound

section Effects

variable {rank : N.Msg → ℕ} {now : Duration} {bound : WithTop ℕ} {base : List (Scheduled N)}
  {core core' : SchedCore N}

theorem Lighter.congr (h : Lighter rank now bound base core) (hsame : SameQueue core core') :
    Lighter rank now bound base core' :=
  ⟨hsame.now_eq.trans h.now_eq, hsame.queue_eq ▸ h.added⟩

theorem Lighter.enqueue (h : Lighter rank now bound base core) {fireAt : Duration}
    {kind : EventKind N}
    (hlater : now < fireAt ∨ fireAt = now ∧ kind.rank rank < bound) :
    Lighter rank now bound base (core.enqueue fireAt kind) := by
  obtain ⟨added, hperm, hadded⟩ := h.added
  refine ⟨h.now_eq, ⟨fireAt, core.seq, kind⟩ :: added, ?_,
    List.forall_mem_cons.mpr ⟨hlater, hadded⟩⟩
  exact (PriorityQueue.perm_push _ _).trans (hperm.cons _)

/-- Sending a message below the rank. -/
theorem Lighter.scheduleDelivery (h : Lighter rank now bound base core) {sender recipient : NodeId}
    {msg : N.Msg} (hmsg : WithTop.some (rank msg) < bound)
    (hsend : core.scheduleDelivery sender recipient msg = .ok core') :
    Lighter rank now bound base core' := by
  have hspec := delivery core sender recipient msg
  rw [hsend] at hspec
  generalize hresult : (Except.ok core' : Except Halt (SchedCore N)) = result at hspec
  cases hspec with
  | cut =>
    obtain rfl := Except.ok.inj hresult
    exact h
  | lost =>
    obtain rfl := Except.ok.inj hresult
    exact h.congr ⟨rfl, rfl, rfl, rfl, rfl⟩
  | overflow => cases hresult
  | @sent sampled _ _ hsum =>
    obtain rfl := Except.ok.inj hresult
    have hle : now ≤ core.arrival sender recipient sampled :=
      h.now_eq ▸ (le_of_addDuration hsum).trans (le_arrival core sender recipient sampled)
    have hlater : now < core.arrival sender recipient sampled ∨
        core.arrival sender recipient sampled = now ∧
          (EventKind.deliver sender recipient msg : EventKind N).rank rank < bound :=
      hle.lt_or_eq.imp_right fun heq ↦ ⟨heq.symm, hmsg⟩
    have hdrawn : Lighter rank now bound base
        (core.drawn sender recipient (core.arrival sender recipient sampled)) :=
      h.congr ⟨rfl, rfl, rfl, rfl, rfl⟩
    unfold SchedCore.sent
    split_ifs
    · exact (hdrawn.enqueue hlater).enqueue hlater
    · exact hdrawn.enqueue hlater

/-- A callback that emits below a rank only. -/
theorem Lighter.run {me : NodeId} {α : Type} {effects : Effects N.Msg N.Timer N.Response α} {a : α}
    (h : Lighter rank now bound base core)
    (hbelow : ∀ peers out, Yields me peers effects out a → ∀ e ∈ out, Below rank bound e)
    (hrun : effects.run (harnessCtx codec me) core = .ok (a, core')) :
    Lighter rank now bound base core' := by
  have hemits : ∃ out, Yields me (peersOf core.nodeCount me) effects out a ∧
      ((∀ e ∈ out, Below rank bound e) → Lighter rank now bound base core') := by
    refine run_yields
      (R := fun out c ↦ (∀ e ∈ out, Below rank bound e) → Lighter rank now bound base c)
      (fun recipient msg out s s' hs hsend hout ↦ ?_) (fun timer after out s s' hs hset hout ↦ ?_)
      (fun timer out s hs hout ↦ (hs hout).congr ⟨rfl, rfl, rfl, rfl, rfl⟩)
      (fun out s hs hout ↦ (hs hout).congr ⟨rfl, rfl, rfl, rfl, rfl⟩)
      (fun token completion out s hs hout ↦ ?_) (fun _ ↦ h) hrun
    · rw [List.forall_mem_append, List.forall_mem_singleton] at hout
      exact (hs hout.1).scheduleDelivery hout.2 hsend
    · rw [List.forall_mem_append, List.forall_mem_singleton] at hout
      obtain ⟨fireAt, hsum, rfl⟩ := armTimer_eq_ok hset
      have hcancelled : Lighter rank now bound base (s.cancelTimer me timer) :=
        (hs hout.1).congr ⟨rfl, rfl, rfl, rfl, rfl⟩
      exact hcancelled.enqueue (.inl ((hs hout.1).now_eq ▸ lt_of_addDuration hsum hout.2))
    · rw [List.forall_mem_append] at hout
      exact (hs hout.1).congr (sameQueue_completeOp _ _ _)
  obtain ⟨out, hyields, hafter⟩ := hemits
  exact hafter (hbelow _ out hyields)

/-- A callback of a node in its slot. -/
theorem Lighter.runCallback (h : Lighter rank now bound base core)
    {nodes nodes' : List (Option N.State)} {me : NodeId}
    {callback : N.State → Effects N.Msg N.Timer N.Response N.State}
    (hbelow : ∀ node peers out node', Yields me peers (callback node) out node' →
      ∀ e ∈ out, Below rank bound e)
    (hrun : Simulator.runCallback codec core nodes me callback = .ok (core', nodes')) :
    Lighter rank now bound base core' := by
  unfold Simulator.runCallback at hrun
  split at hrun
  · cases hrun
  · obtain ⟨rfl, -⟩ := Prod.mk.inj (Except.ok.inj hrun)
    exact h
  · rename_i node _
    split at hrun
    · cases hrun
    · rename_i node' after hcallback
      obtain ⟨rfl, -⟩ := Prod.mk.inj (Except.ok.inj hrun)
      exact h.run (fun peers out hyields ↦ hbelow node peers out node' hyields) hcallback

/-- The dispatch of a client operation. -/
theorem Lighter.dispatchClientOp (hranked : Ranked N rank) (h : Lighter rank now ⊤ base core)
    {nodes nodes' : List (Option N.State)} {process : NodeId} {op : FrozenOp}
    (hdispatch : Simulator.dispatchClientOp codec core nodes process op = .ok (core', nodes')) :
    Lighter rank now ⊤ base core' := by
  unfold Simulator.dispatchClientOp at hdispatch
  simp only at hdispatch
  split at hdispatch
  · obtain ⟨rfl, -⟩ := Prod.mk.inj (Except.ok.inj hdispatch)
    exact (h.congr (sameQueue_openOp _ _ _ _)).congr (sameQueue_closeOp _ _ _ _)
  rename_i f typedOp _
  have hopened := h.congr (sameQueue_openOp core ⟨process.id⟩ f op.op)
  split at hdispatch
  · cases hdispatch
  · obtain ⟨rfl, -⟩ := Prod.mk.inj (Except.ok.inj hdispatch)
    exact hopened.congr (sameQueue_closeOp _ _ _ _)
  split at hdispatch
  · cases hdispatch
  rename_i node' outcome after hrun
  have hafter := hopened.run
    (fun peers out hyields ↦ hranked.onClientOp _ peers _ _ _ out _ hyields) hrun
  split at hdispatch
  · obtain ⟨rfl, -⟩ := Prod.mk.inj (Except.ok.inj hdispatch)
    exact hafter.congr (sameQueue_closeOp _ _ _ _)
  · obtain ⟨rfl, -⟩ := Prod.mk.inj (Except.ok.inj hdispatch)
    exact hafter

/-- The pump schedules a millisecond later. -/
theorem lighter_pumpClientOps {state next : RunState N} (hpump : pumpClientOps state = .ok next)
    (h : Lighter rank now bound base state.core) : Lighter rank now bound base next.core := by
  refine foldlM_invariant (P := fun s : RunState N ↦ Lighter rank now bound base s.core)
    (fun p _ s s' hs hprocess ↦ ?_) h hpump
  cases pumps_of_pumpProcess hprocess with
  | busy => exact hs
  | drained => exact hs
  | issue _ _ hsum =>
    exact hs.enqueue (.inl (hs.now_eq ▸ lt_of_addDuration hsum (fromMillis_pos (by decide))))

end Effects

/-! ### The weight of the queue -/

section Turns

variable {rank : N.Msg → ℕ} {state next : RunState N} {event : Scheduled N}

/-- What a turn queues is later than the event that it takes, or a message of a smaller rank. -/
theorem Turn.lighter (hranked : Ranked N rank) (h : Turn codec ops state event next)
    {queue : PriorityQueue Scheduled.key} (hpop : state.core.queue.pop = some (event, queue)) :
    Lighter rank event.fireAt (event.kind.rank rank) queue.toList next.core := by
  have hresolved {queue' : PriorityQueue Scheduled.key} {popped : Option (PoppedEvent N)}
      {core : SchedCore N} (hpop' : state.core.queue.pop = some (event, queue'))
      (hresolve : SchedCore.resolve { state.core with queue := queue' } event = (popped, core)) :
      Lighter rank event.fireAt (event.kind.rank rank) queue.toList core := by
    obtain ⟨-, rfl⟩ := Prod.mk.inj (Option.some.inj (hpop.symm.trans hpop'))
    have hsame := sameQueue_resolve hresolve
    refine ⟨hsame.now_eq, [], ?_, fun _ h ↦ absurd h List.not_mem_nil⟩
    rw [hsame.queue_eq]
    exact .refl _
  cases h with
  | skip hpop' hbelow hresolve => exact hresolved hpop' hresolve
  | fire hpop' hbelow hresolve hhandle =>
    have hcore := hresolved hpop' hresolve
    obtain ⟨core', nodes', pumped, hdispatch, hpump, rfl⟩ := exists_pump_of_handle hhandle
    suffices hdispatched : Lighter rank event.fireAt (event.kind.rank rank) queue.toList core' by
      have hpumped := lighter_pumpClientOps hpump hdispatched
      exact hpumped
    generalize hpopped : some _ = result at hresolve
    cases resolves_of_resolve hresolve with
    | skipped => cases hpopped
    | deliver hkind =>
      obtain rfl := Option.some.inj hpopped
      rw [hkind] at hcore ⊢
      exact hcore.runCallback (fun node peers out node' hyields ↦
        hranked.onMsg _ peers node _ _ out node' hyields) hdispatch
    | timer hkind =>
      obtain rfl := Option.some.inj hpopped
      rw [hkind] at hcore ⊢
      exact hcore.runCallback (fun node peers out node' hyields ↦
        hranked.onTimer _ peers node _ out node' hyields) hdispatch
    | clientOp hkind =>
      obtain rfl := Option.some.inj hpopped
      rw [hkind] at hcore ⊢
      rw [dispatch] at hdispatch
      split at hdispatch
      · cases hdispatch
      · exact hcore.dispatchClientOp hranked hdispatch
    | @fault action hkind =>
      obtain rfl := Option.some.inj hpopped
      rw [hkind] at hcore ⊢
      generalize (SchedCore.applyFault _ action).1 = rejoined at hdispatch
      cases rejoined with
      | none =>
        obtain ⟨rfl, -⟩ := Prod.mk.inj (Except.ok.inj hdispatch)
        exact hcore
      | some n =>
        exact hcore.runCallback (fun node peers out node' hyields ↦
          hranked.onStart _ peers node out node' hyields) hdispatch

/-- The weight of a queued event: the time that it leaves up to the horizon, and its rank. -/
def weight (rank : N.Msg → ℕ) (horizon : Duration) (event : Scheduled N) : ℕ ×ₗ WithTop ℕ :=
  toLex (horizon.nanos - event.fireAt.nanos, event.kind.rank rank)

/-- The weights of the queued events. -/
def weights (rank : N.Msg → ℕ) (core : SchedCore N) : Multiset (ℕ ×ₗ WithTop ℕ) :=
  Multiset.map (weight rank core.horizon) core.queue.toList

/-- The weights get smaller with every turn: that of the event that is taken gives way to smaller
ones. -/
theorem Turn.weights_lt (hranked : Ranked N rank) (h : Turn codec ops state event next) :
    (weights rank next.core).IsDershowitzMannaLT (weights rank state.core) := by
  obtain ⟨queue, hpop, hbelow⟩ := h.pop_eq
  obtain ⟨added, hperm, hadded⟩ := (h.lighter hranked hpop).added
  refine ⟨Multiset.map (weight rank state.core.horizon) queue.toList,
    Multiset.map (weight rank state.core.horizon) added, {weight rank state.core.horizon event},
    Multiset.singleton_ne_zero _, ?_, ?_, fun lighter hlighter ↦ ?_⟩
  · rw [← Multiset.map_add, weights, h.horizon_eq]
    exact congrArg _ (Multiset.coe_eq_coe.mpr (hperm.trans List.perm_append_comm))
  · rw [weights, PriorityQueue.pop_eq_some_iff.mp hpop, ← Multiset.cons_coe, Multiset.map_cons,
      ← Multiset.singleton_add, add_comm]
  · obtain ⟨later, hlater, rfl⟩ := Multiset.mem_map.mp hlighter
    refine ⟨weight rank state.core.horizon event, Multiset.mem_singleton_self _, ?_⟩
    have hbelow' := Duration.lt_iff.mp hbelow
    rw [weight, weight, Prod.Lex.toLex_lt_toLex]
    rcases hadded later hlater with hlt | ⟨heq, hrank⟩
    · have hlt' := Duration.lt_iff.mp hlt
      exact .inl (by dsimp only; omega)
    · exact .inr ⟨by rw [heq], hrank⟩

end Turns

/-! ### Turns that do not run out of fuel -/

theorem effectRule_any (me : NodeId) :
    EffectRule (N := N) me (fun _ ↦ True) (fun _ ↦ True) (· ≠ .outOfFuel) where
  quiet _ _ _ _ _ := trivial
  close _ _ _ _ _ := trivial
  deliver _ _ _ _ _ := ensures_of_eq (fun _ _ ↦ trivial) fun halt hhalt ↦ by
    rw [scheduleDelivery_error hhalt]
    exact Halt.noConfusion
  arm _ _ _ _ _ := ensures_of_eq (fun _ _ ↦ trivial) fun halt hhalt ↦ by
    rw [armTimer_error hhalt]
    exact Halt.noConfusion

theorem pump_ne_outOfFuel (state : RunState N) (p : ℕ) :
    Ensures (fun _ ↦ True) (· ≠ .outOfFuel) (pumpProcess state p) :=
  ensures_of_eq (fun _ _ ↦ trivial) fun halt hhalt ↦ by
    rw [pumpProcess_error hhalt]
    exact Halt.noConfusion

/-- No single turn asks for fuel. -/
theorem handle_ne_outOfFuel (state : RunState N) (popped : PoppedEvent N) :
    handle codec ops state popped ≠ .error .outOfFuel := by
  have hdispatch : Ensures (fun r ↦ True ∧ r.2.length = state.nodes.length) (· ≠ .outOfFuel)
      (dispatch codec ops state.core state.nodes popped) :=
    dispatch_ensures (fun me _ ↦ effectRule_any me) (fun _ _ _ _ _ ↦ trivial)
      (fun _ _ _ _ _ ↦ trivial) (.inr Halt.noConfusion) (fun _ _ ↦ trivial) trivial
  have hhandle : Ensures (fun _ : RunState N ↦ True) (· ≠ .outOfFuel)
      (handle codec ops state popped) :=
    handle_ensures (hdispatch.mono fun _ _ ↦ trivial) (fun next p _ ↦ pump_ne_outOfFuel next p)
      fun _ _ ↦ trivial
  intro herror
  exact hhandle.of_error herror rfl

/-- A loop ends when every turn decreases a measure, by well-founded induction on the measure. -/
theorem exists_fuel_of_decreasing {β : Type*} {r : β → β → Prop} (hwf : WellFounded r)
    (measure : RunState N → β)
    (hturn : ∀ state event next, Turn codec ops state event next → r (measure next) (measure state))
    (state : RunState N) : ∃ fuel, mainLoop codec ops fuel state ≠ .error .outOfFuel := by
  induction hmeasure : measure state using hwf.transGen.induction generalizing state with
  | h value ih =>
    subst hmeasure
    cases hpop : state.core.pop with
    | mk popped core =>
      cases popped with
      | none => exact ⟨1, by simp [mainLoop, hpop]⟩
      | some popped =>
        obtain ⟨state', event, hreach, hfires, heq⟩ :=
          @exists_fires N codec ops state _ state popped core .refl hpop
        cases hhandle : handle codec ops { state with core := core } popped with
        | error halt =>
          refine ⟨1, ?_⟩
          simp only [mainLoop, hpop, hhandle]
          rintro ⟨⟩
          exact handle_ne_outOfFuel _ _ hhandle
        | ok next =>
          have hlast := hturn _ _ _ (hfires.turn (heq ▸ hhandle))
          have hlt : Relation.TransGen r (measure next) (measure state) := by
            clear hfires heq hhandle ih
            induction hreach generalizing next with
            | refl => exact .single hlast
            | tail _ hstep ih =>
              obtain ⟨event', hstep⟩ := hstep
              exact .head hlast (ih _ (hturn _ _ _ hstep))
          obtain ⟨fuel, hfuel⟩ := ih _ hlt next rfl
          refine ⟨fuel + 1, ?_⟩
          simp only [mainLoop, hpop, hhandle]
          exact hfuel

/-- The loop of a node with ranked messages ends on every network. -/
theorem exists_fuel_of_ranked {rank : N.Msg → ℕ} (hranked : Ranked N rank) (state : RunState N) :
    ∃ fuel, mainLoop codec ops fuel state ≠ .error .outOfFuel :=
  exists_fuel_of_decreasing (Multiset.wellFounded_isDershowitzMannaLT (α := ℕ ×ₗ WithTop ℕ))
    (fun s ↦ weights rank s.core) (fun _ _ _ hturn ↦ hturn.weights_lt hranked) state

/-! ### Runs -/

section Runs

variable {data : PlanData} {workload : Option Strategy} {seed : Seed}

/-- A run that runs out of fuel does so in its loop. -/
theorem mainLoop_of_outOfFuel {fuel : ℕ} {nodeDef : Option NodeDef}
    (h : runDeterministic fuel data nodeDef workload codec seed = .error .outOfFuel) :
    ∃ prepared started, prepareCore N data seed = .ok prepared ∧
      startRun codec (resolveOps data workload seed) prepared = .ok started ∧
        mainLoop codec (resolveOps data workload seed) fuel started = .error .outOfFuel := by
  have hnode : nodeDef ≠ some .spawnEach := by
    rintro rfl
    cases h
  rw [runDeterministic_eq hnode, except_bind_eq_error] at h
  rcases h with h | ⟨prepared, hprepared, h⟩
  · cases prepareCore_error h
  have hstart : Ensures (fun _ : RunState N ↦ True) (· ≠ .outOfFuel)
      (startRun codec (resolveOps data workload seed) prepared) :=
    startRun_ensures (fun id _ ↦ effectRule_any ⟨.ofNat id⟩) (fun _ _ ↦ trivial) trivial
      (fun _ _ _ _ ↦ trivial) fun state p _ ↦ pump_ne_outOfFuel state p
  rcases except_bind_eq_error.mp h with h | ⟨started, hstarted, h⟩
  · exact absurd rfl (hstart.of_error h)
  refine ⟨prepared, started, hprepared, hstarted, ?_⟩
  rcases except_bind_eq_error.mp h with h | ⟨_, -, hpure⟩
  · exact h
  · exact absurd hpure except_pure_ne_error

/-- The run of a node with ranked messages ends, on every network. -/
theorem runDeterministic_ends_of_ranked {rank : N.Msg → ℕ} (hranked : Ranked N rank)
    (nodeDef : Option NodeDef) :
    ∃ fuel, runDeterministic fuel data nodeDef workload codec seed ≠ .error .outOfFuel := by
  by_contra! hnever
  obtain ⟨prepared, started, hprepared, hstarted, -⟩ := mainLoop_of_outOfFuel (hnever 0)
  obtain ⟨fuel, hfuel⟩ := @exists_fuel_of_ranked N codec (resolveOps data workload seed) _ hranked
    started
  obtain ⟨prepared', started', hprepared', hstarted', hloop⟩ := mainLoop_of_outOfFuel (hnever fuel)
  obtain rfl := Except.ok.inj (hprepared.symm.trans hprepared')
  obtain rfl := Except.ok.inj (hstarted.symm.trans hstarted')
  exact hfuel hloop

/-- A run whose script and sends stay in the cluster does not index out of bounds. -/
theorem runDeterministic_ne_outOfBounds (h : StaysInCluster N data workload codec seed) (fuel : ℕ)
    (nodeDef : Option NodeDef) :
    runDeterministic fuel data nodeDef workload codec seed ≠ .error .outOfBounds := by
  intro herror
  obtain ⟨prepared, started, state, event, queue, hprepare, hstart, hreach, hpop, hbelow,
    hastray⟩ := exists_outOfBounds_iff.mp ⟨fuel, nodeDef, herror⟩
  obtain ⟨log, harrives⟩ := hreach.arrives prepared
  exact h.not_astray hprepare hstart harrives hpop hbelow hastray

/-- A run returns a history, on every network. Assumes: nodes that are state machines whose messages
are ranked; a script and sends that stay in the cluster; and sums that are representable. -/
theorem runDeterministic_returns {rank : N.Msg → ℕ} (hranked : Ranked N rank)
    {nodeDef : Option NodeDef} (hnode : nodeDef ≠ some .spawnEach)
    (hstays : StaysInCluster N data workload codec seed)
    (hsums : ∀ a b, Sums N data workload codec seed a b → Fits a b) :
    ∃ fuel run, runDeterministic fuel data nodeDef workload codec seed = .ok (.ok run) := by
  obtain ⟨fuel, hfuel⟩ :=
    @runDeterministic_ends_of_ranked N codec data workload seed _ hranked nodeDef
  have hbounds := runDeterministic_ne_outOfBounds hstays fuel nodeDef
  refine ⟨fuel, ?_⟩
  cases hrun : runDeterministic fuel data nodeDef workload codec seed with
  | error halt =>
    cases halt with
    | overflow =>
      obtain ⟨a, b, hsum, hfits⟩ := exists_overflow_iff.mp ⟨fuel, nodeDef, hrun⟩
      exact absurd (hsums a b hsum) hfits
    | outOfBounds => exact absurd hrun hbounds
    | outOfFuel => exact absurd hrun hfuel
  | ok outcome =>
    rw [runDeterministic_eq hnode] at hrun
    obtain ⟨_, -, hrun⟩ := except_bind_eq_ok.mp hrun
    obtain ⟨_, -, hrun⟩ := except_bind_eq_ok.mp hrun
    obtain ⟨final, -, hrun⟩ := except_bind_eq_ok.mp hrun
    exact ⟨finishRun seed final, (except_pure_eq_ok.mp hrun).symm ▸ rfl⟩

/-! ### Plans whose runs return -/

/-- The delays that the network of a run may have: those of the network that the plan names, and
those of the latency kinds among its faults. -/
def delayRanges (data : PlanData) : List MillisRange :=
  (data.network.getD .orderedReliable).delayMs ::
    ((data.faults.bind Faults.swarmKinds).getD []).filterMap fun
      | .latency range => some range
      | _ => none

theorem mem_of_mem_selectKinds {kind : FaultKind} {kinds : List FaultKind} {rng : SimRng}
    (h : kind ∈ (selectKinds kinds rng).1) : kind ∈ kinds := by
  induction kinds generalizing rng with
  | nil => cases h
  | cons other kinds ih =>
    simp only [selectKinds] at h
    split_ifs at h
    · exact (List.mem_cons.mp h).elim (fun heq ↦ heq ▸ List.mem_cons_self)
        fun h ↦ List.mem_cons_of_mem _ (ih h)
    · exact List.mem_cons_of_mem _ (ih h)

/-- Lowering a kind keeps the delays, or sets those of a latency kind. -/
theorem delayMs_lowerKind {mode : Mode} {count : UInt64} {state state' : Lowering N}
    {kind : FaultKind} (h : lowerKind mode count state kind = .ok state') :
    state'.model.delayMs = state.model.delayMs ∨ kind = .latency state'.model.delayMs := by
  cases kind with
  | latency range =>
    obtain rfl := Except.ok.inj h
    exact .inr rfl
  | drop p =>
    obtain rfl := Except.ok.inj h
    exact .inl rfl
  | duplicate p =>
    obtain rfl := Except.ok.inj h
    exact .inl rfl
  | reorder =>
    obtain rfl := Except.ok.inj h
    exact .inl rfl
  | partitions =>
    rw [lowerKind] at h
    split_ifs at h
    · obtain rfl := Except.ok.inj h
      exact .inl rfl
    · obtain rfl := Except.ok.inj h
      exact .inl rfl
  | crashRestart =>
    rw [lowerKind] at h
    split_ifs at h
    · obtain ⟨restartAt, -, h⟩ := except_bind_eq_ok.mp h
      obtain rfl := except_pure_eq_ok.mp h
      exact .inl rfl
    · obtain rfl := except_pure_eq_ok.mp h
      exact .inl rfl

/-- The network of a run has delays that the plan names. -/
theorem delayMs_mem_delayRanges {prepared : SchedCore N}
    (h : prepareCore N data seed = .ok prepared) :
    prepared.model.delayMs ∈ delayRanges data := by
  simp only [prepareCore, except_bind_eq_ok] at h
  obtain ⟨horizon, -, ⟨model, core⟩, hlower, hprepared⟩ := h
  obtain rfl := except_pure_eq_ok.mp hprepared
  change model.delayMs ∈ delayRanges data
  cases hfaults : data.faults with
  | none =>
    rw [hfaults] at hlower
    obtain ⟨rfl, -⟩ := Prod.mk.inj (Except.ok.inj hlower)
    exact List.mem_cons_self
  | some faults =>
    rw [hfaults] at hlower
    obtain ⟨spec, mode⟩ := faults
    cases spec with
    | scripted script =>
      obtain ⟨rfl, -⟩ := Prod.mk.inj (Except.ok.inj hlower)
      exact List.mem_cons_self
    | swarm kinds =>
      have hlower : lowerSwarm kinds mode _ _ _ _ = .ok (model, core) := hlower
      obtain ⟨state, hkinds, hstate⟩ := except_bind_eq_ok.mp hlower
      have hdelays : state.model.delayMs ∈ delayRanges data := by
        refine foldlM_invariant (P := fun s : Lowering N ↦ s.model.delayMs ∈ delayRanges data)
          (fun kind hkind s s' hs hturn ↦ ?_) List.mem_cons_self hkinds
        rcases delayMs_lowerKind hturn with heq | rfl
        · rw [heq]
          exact hs
        · refine List.mem_cons_of_mem _ (List.mem_filterMap.mpr
            ⟨.latency s'.model.delayMs, ?_, rfl⟩)
          rw [hfaults]
          exact mem_of_mem_selectKinds hkind
      split_ifs at hstate
      · obtain ⟨rfl, -⟩ := Prod.mk.inj (except_pure_eq_ok.mp hstate)
        exact hdelays
      · obtain ⟨rfl, -⟩ := Prod.mk.inj (except_pure_eq_ok.mp hstate)
        exact hdelays

/-- Nodes and a plan whose runs return: messages are ranked, callbacks send to nodes of the cluster
and arm timers within a span, restarts name nodes of the cluster, and the clock leaves room for the
timers, the pump and the delays of the network after the last fault and the margin of the
horizon. -/
structure Runnable (N : Node) (data : PlanData) (rank : N.Msg → ℕ) (longest : Duration) : Prop where
  ranked : Ranked N rank
  keeps : KeepsTo N (fun recipient ↦ recipient.id < nodeCount data) (· ≤ longest)
  restarts : RestartsInCluster data
  timers : (latestFault (horizonFaults data)).nanos + (Duration.fromSecs 10).nanos +
    longest.nanos ≤ maxNanos
  pump : (latestFault (horizonFaults data)).nanos + (Duration.fromSecs 10).nanos +
    (Duration.fromMillis 1).nanos ≤ maxNanos
  delays : ∀ model : NetworkModel, model.delayMs ∈ delayRanges data →
    (latestFault (horizonFaults data)).nanos + (Duration.fromSecs 10).nanos + maxDelay model ≤
      maxNanos

/-- The horizon of a run is ten seconds after the last fault. -/
theorem nanos_runHorizon {horizon : Duration} (h : runHorizon data = .ok horizon) :
    horizon.nanos = (latestFault (horizonFaults data)).nanos + (Duration.fromSecs 10).nanos := by
  simp only [runHorizon, except_bind_eq_ok] at h
  obtain ⟨sum, hsum, h⟩ := h
  obtain rfl := except_pure_eq_ok.mp h
  rw [max_eq_left, nanos_of_addDuration hsum]
  rw [Duration.le_iff, nanos_of_addDuration hsum]
  exact Nat.le_add_left _ _

namespace Runnable

variable {rank : N.Msg → ℕ} {longest : Duration}

/-- A run of such a plan returns a history. -/
theorem returns (h : Runnable N data rank longest) {nodeDef : Option NodeDef}
    (hnode : nodeDef ≠ some .spawnEach) :
    ∃ fuel run, runDeterministic fuel data nodeDef workload codec seed = .ok (.ok run) := by
  obtain ⟨horizon, hhorizon⟩ : ∃ horizon, runHorizon data = .ok horizon := by
    cases hresult : runHorizon data with
    | ok horizon => exact ⟨horizon, rfl⟩
    | error halt =>
      obtain rfl := prepareCore_error ((@prepareCore_eq_error_iff N data seed halt).mpr hresult)
      exact absurd ((Nat.le_add_right _ _).trans h.pump) (runHorizon_eq_error_iff.mp hresult)
  refine runDeterministic_returns h.ranked hnode (h.keeps.staysInCluster h.restarts)
    fun a b hsum ↦ hsum.fits hhorizon ?_ (fun prepared hprepare ↦ ?_)
      fun m hm node timer after hact ↦ ?_
  · rw [Fits, nanos_runHorizon hhorizon]
    exact h.pump
  · rw [nanos_runHorizon hhorizon]
    exact h.delays prepared.model (delayMs_mem_delayRanges hprepare)
  · have hspan := (h.keeps.happens (fun _ ↦ id) hm).spans node timer after hact
    rw [Fits, nanos_runHorizon hhorizon]
    exact (Nat.add_le_add_left (Duration.le_iff.mp hspan) _).trans h.timers

end Runnable

end Runs

end Propsim.Simulator
