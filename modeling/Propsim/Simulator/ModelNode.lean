import Propsim.Oracle.InTurn
import Propsim.Simulator.Victims
import Propsim.Simulator.Worlds

/-!
# A node that runs its own specification

The node whose state is the state of a sequential model and whose client operations are the steps of
the model. When every operation goes to one such node, each turn that takes an operation records its
Invoke and its completion, and the history is answered in turn whatever the faults, the network and
the other processes do (`Turn.answersInTurn`), so the checker finds nothing
(`runDeterministic_linearizable`).
-/

set_option autoImplicit false
set_option relaxedAutoImplicit false

namespace Propsim.Simulator

open Foundation Interchange Propsim.Core Propsim.Oracle

/-- The node of a sequential model: its other callbacks change nothing and send nothing. -/
def modelNode (M : SequentialModel) (Msg Timer : Type) (debug : Timer → String) : Node where
  State := M.State
  Msg := Msg
  Timer := Timer
  Op := M.Op
  Response := Oracle.Response
  default := M.init
  debug := debug
  onStart state := .done state
  onMsg state _ _ := .done state
  onTimer state _ := .done state
  onClientOp state op _ := .done ((M.step state op).1, .done (M.step state op).2)

variable {M : SequentialModel} {Msg Timer : Type} {debug : Timer → String}
  {codec : ClientCodec (modelNode M Msg Timer debug)} {ops : List FrozenOp} {t : ℕ}

/-- A codec agrees with the model: the model reads back the operation that it decodes, and the
response of the model that it encodes. -/
def Agrees (codec : ClientCodec (modelNode M Msg Timer debug)) : Prop :=
  ∀ v f op, codec.decode v = some (f, op) → ∀ state,
    M.decode f.name v (codec.encodeResponse f (M.step state op).2) = some (op, (M.step state op).2)

/-- The history is answered in turn by the node at an index, and no operation is open. -/
structure AnswersInTurn (t : ℕ) (core : SchedCore (modelNode M Msg Timer debug))
    (nodes : List (Option M.State)) : Prop where
  pending : core.pendingOps = []
  exists_state : ∃ state, AnsweredInTurn M state core.history.entries ∧
    (t < nodes.length → nodes[t]? = some (some state))

/-- Opening an operation and closing it at once. -/
theorem close_open {N : Node} {core : SchedCore N} (hpending : core.pendingOps = [])
    (process : ProcessId) (f : Function) (value value' : Value) (kind : OpKind) :
    ((core.openOp process f value).2.closeOp (core.openOp process f value).1 kind value').pendingOps
        = [] ∧
      ∃ inv c, ((core.openOp process f value).2.closeOp (core.openOp process f value).1 kind
          value').history.entries = core.history.entries ++ [inv, c] ∧
        inv.kind = .invoke ∧ inv.value = value ∧ c.kind = kind ∧ c.process = inv.process ∧
          c.f = f ∧ c.value = value' := by
  have hissued : ∀ entry ∈ core.pendingOps, entry.1 < core.nextToken := by
    rw [hpending]
    intro entry hentry
    cases hentry
  have hopen := pending_openOp hissued process f value
  constructor
  · rw [pendingOps_closeOp hopen, pendingOps_openOp, hpending, List.nil_append]
    exact List.filter_eq_nil_iff.mpr (by simp [SchedCore.openOp, SchedCore.record])
  · rw [SchedCore.closeOp, hopen]
    exact ⟨_, _, List.append_assoc _ _ _, rfl, rfl, rfl, rfl, rfl, rfl⟩

/-- A callback that does nothing changes nothing. -/
theorem runCallback_idle {N : Node} {codec : Option (ClientCodec N)} {core core' : SchedCore N}
    {nodes nodes' : List (Option N.State)} {id : NodeId}
    {callback : N.State → Effects N.Msg N.Timer N.Response N.State}
    (hidle : ∀ node, callback node = .done node)
    (h : runCallback codec core nodes id callback = .ok (core', nodes')) :
    core' = core ∧ nodes' = nodes := by
  unfold runCallback at h
  split at h
  · cases h
  · obtain ⟨rfl, rfl⟩ := Prod.mk.inj (Except.ok.inj h)
    exact ⟨rfl, rfl⟩
  · rename_i node hslot
    rw [hidle, Effects.run] at h
    obtain ⟨rfl, rfl⟩ := Prod.mk.inj (Except.ok.inj h)
    obtain ⟨hlt, hget⟩ := List.getElem?_eq_some_iff.mp hslot
    exact ⟨rfl, by rw [← hget, List.set_getElem_self]⟩

/-- The node answers an operation that it is handed. -/
theorem AnswersInTurn.dispatchClientOp (hagrees : Agrees codec)
    {core core' : SchedCore (modelNode M Msg Timer debug)} {nodes nodes' : List (Option M.State)}
    (h : AnswersInTurn t core nodes) {process : NodeId} {op : FrozenOp}
    (htarget : target op process nodes.length = t)
    (hdispatch : Simulator.dispatchClientOp (some codec) core nodes process op =
      .ok (core', nodes')) : AnswersInTurn t core' nodes' := by
  obtain ⟨hpending, state, hanswered, hslot⟩ := h
  subst htarget
  unfold Simulator.dispatchClientOp at hdispatch
  simp only [Option.bind_some] at hdispatch
  split at hdispatch
  · obtain ⟨rfl, rfl⟩ := Prod.mk.inj (Except.ok.inj hdispatch)
    obtain ⟨hclosed, inv, c, hentries, hinv, -, hc, hsame, -⟩ :=
      close_open hpending ⟨process.id⟩ (opFunction op) op.op .nil .fail
    refine ⟨hclosed, state, ?_, hslot⟩
    rw [hentries]
    exact hanswered.failed hinv hc hsame
  · rename_i f typedOp hdecode
    split at hdispatch
    · cases hdispatch
    · rename_i hnone
      have hlt := (List.getElem?_eq_some_iff.mp hnone).1
      cases (hslot hlt).symm.trans hnone
    · rename_i node hsome
      have hlt := (List.getElem?_eq_some_iff.mp hsome).1
      obtain rfl : state = node := Option.some.inj (Option.some.inj ((hslot hlt).symm.trans hsome))
      obtain ⟨rfl, rfl⟩ := Prod.mk.inj (Except.ok.inj hdispatch)
      obtain ⟨hclosed, inv, c, hentries, hinv, hvalue, hc, hsame, hf, hvalue'⟩ :=
        close_open hpending ⟨process.id⟩ f op.op
          (codec.encodeResponse f (M.step state typedOp).2) .ok
      refine ⟨hclosed, (M.step state typedOp).1, ?_, fun _ ↦ List.getElem?_set_self hlt⟩
      have hanswer : M.decode c.f.name inv.value c.value =
          some (typedOp, (M.step state typedOp).2) := by
        rw [hf, hvalue, hvalue']
        exact hagrees op.op f typedOp hdecode _
      rw [hentries]
      exact hanswered.answered hinv hc hsame hanswer

/-- Resolving an event leaves the history alone when no operation is open. -/
theorem Resolves.entries_eq {N : Node} {core core' : SchedCore N} {event : Scheduled N}
    {popped : Option (PoppedEvent N)} (h : Resolves core event popped core')
    (hpending : core.pendingOps = []) :
    core'.history = core.history ∧ core'.pendingOps = [] := by
  cases h with
  | skipped => exact ⟨rfl, hpending⟩
  | deliver => exact ⟨rfl, hpending⟩
  | timer => exact ⟨rfl, hpending⟩
  | clientOp => exact ⟨rfl, hpending⟩
  | @fault action hkind =>
    cases action with
    | partition => exact ⟨rfl, hpending⟩
    | healAll => exact ⟨rfl, hpending⟩
    | restart => exact ⟨rfl, hpending⟩
    | crash n =>
      dsimp only [SchedCore.applyFault]
      split_ifs
      · rw [hpending]
        exact ⟨rfl, rfl⟩
      · rw [hpending]
        exact ⟨rfl, rfl⟩

/-- A turn keeps the history answered in turn. Assumes: an operation that it takes is handed to the
node. -/
theorem Turn.answersInTurn (hagrees : Agrees codec)
    {state next : RunState (modelNode M Msg Timer debug)}
    {event : Scheduled (modelNode M Msg Timer debug)}
    (h : Turn (some codec) ops state event next)
    (htarget : ∀ process index op, event.kind = .clientOp process index → ops[index]? = some op →
      target op process state.nodes.length = t)
    (hstate : AnswersInTurn t state.core state.nodes) : AnswersInTurn t next.core next.nodes := by
  have hresolved {core : SchedCore (modelNode M Msg Timer debug)} {queue}
      {popped : Option (PoppedEvent (modelNode M Msg Timer debug))}
      (hresolves : Resolves { state.core with queue := queue } event popped core) :
      AnswersInTurn t core state.nodes := by
    obtain ⟨hhistory, hpending⟩ := hresolves.entries_eq hstate.pending
    refine ⟨hpending, ?_⟩
    rw [hhistory]
    exact hstate.exists_state
  cases h with
  | skip hpop hbelow hresolve => exact hresolved (resolves_of_resolve hresolve)
  | @fire queue core popped next hpop hbelow hresolve hhandle =>
    have hresolves := resolves_of_resolve hresolve
    have hcore := hresolved hresolves
    obtain ⟨core', nodes, hdispatch, rfl, hnext⟩ := handle_eq_ok hhandle
    have hcallback {id : NodeId} {callback : M.State → Effects Msg Timer Oracle.Response M.State}
        (hidle : ∀ node, callback node = .done node)
        (hrun :
          @runCallback (modelNode M Msg Timer debug) (some codec) core state.nodes id callback =
          .ok (core', next.nodes)) : AnswersInTurn t core' next.nodes := by
      obtain ⟨rfl, heq⟩ := runCallback_idle hidle hrun
      rw [heq]
      exact hcore
    have hdispatched : AnswersInTurn t core' next.nodes := by
      cases popped with
      | deliver sender recipient msg => exact hcallback (fun _ ↦ rfl) hdispatch
      | timer node timer => exact hcallback (fun _ ↦ rfl) hdispatch
      | clientOp process index =>
        have hkind := (hresolves.clientOp_iff process index).mpr rfl
        rw [dispatch] at hdispatch
        split at hdispatch
        · cases hdispatch
        · rename_i op hop
          exact hcore.dispatchClientOp hagrees (htarget process index op hkind hop) hdispatch
      | fault rejoined =>
        cases rejoined with
        | none =>
          obtain ⟨rfl, heq⟩ := Prod.mk.inj (Except.ok.inj hdispatch)
          rw [← heq]
          exact hcore
        | some n => exact hcallback (fun _ ↦ rfl) hdispatch
    rw [hnext]
    exact ⟨hdispatched.pending, hdispatched.exists_state⟩

/-- Only the process and the route of an operation decide its target. -/
theorem target_of_process {op : FrozenOp} {process : NodeId} {count : ℕ}
    (h : op.process.id.toNat % count = process.id.toNat) :
    target op process count = target op op.process count := by
  unfold target
  cases op.route with
  | some node => rfl
  | none => rw [← h, Nat.mod_mod]

section Executions

variable {data : PlanData} {workload : Option Strategy} {seed : Seed}

/-- Before the first turn nothing is recorded, and every node has the first state of the model. -/
theorem Execution.answersInTurn_started
    (e : Execution (modelNode M Msg Timer debug) data workload (some codec) seed) (t : ℕ) :
    AnswersInTurn t e.started.core e.started.nodes := by
  obtain ⟨core, nodes, hnodes, hpump⟩ := startRun_eq_ok.mp e.start_eq
  have hstarted : nodes = List.replicate e.prepared.nodeCount.toNat (some M.init) := by
    refine foldlM_invariant (P := fun s : SchedCore (modelNode M Msg Timer debug) ×
      List (Option M.State) ↦ s.2 = List.replicate e.prepared.nodeCount.toNat (some M.init))
      (fun id _ s s' hs hdispatch ↦ ?_) rfl hnodes
    have hidle := @runCallback_idle (modelNode M Msg Timer debug) (some codec) s.1 s'.1 s.2 s'.2
      ⟨.ofNat id⟩ _ (fun _ ↦ rfl) hdispatch
    exact hidle.2.trans hs
  refine ⟨pendingOps_started e.prepare_eq e.start_eq, M.init, ?_, fun ht ↦ ?_⟩
  · rw [e.entries_started]
    exact .start
  · rw [(pumpClientOps_frame hpump).1] at ht ⊢
    have hslots : (unpumped (resolveOps data workload seed) e.prepared.nodeCount core nodes).nodes =
        List.replicate e.prepared.nodeCount.toNat (some M.init) := hstarted
    rw [hslots] at ht ⊢
    rw [List.length_replicate] at ht
    exact List.getElem?_replicate_of_lt ht

/-- The node that every operation is routed to answers the history of an execution in turn. -/
theorem Execution.answersInTurn
    (e : Execution (modelNode M Msg Timer debug) data workload (some codec) seed)
    (hagrees : Agrees codec) (hrouted : ∀ op ∈ resolveOps data workload seed,
      target op op.process (nodeCount data).toNat = t) :
    ∀ state ∈ e.states, AnswersInTurn t state.core state.nodes := by
  have hinv := e.loop.invariant_taken
    (P := fun s ↦ s.nodes.length = (nodeCount data).toNat ∧ AnswersInTurn t s.core s.nodes)
    (fun s event next hevent ⟨hlength, hs⟩ hturn ↦ ?_) ⟨?_, e.answersInTurn_started t⟩
  · exact fun state hstate ↦ (hinv state hstate).2
  · refine ⟨hturn.length_nodes.trans hlength, hturn.answersInTurn hagrees ?_ hs⟩
    intro process index op hkind hop
    obtain ⟨op', hop', hprocess⟩ := e.process_of_taken hevent hkind
    obtain rfl := Option.some.inj (hop'.symm.trans hop)
    rw [e.prepared_nodeCount] at hprocess
    rw [hlength, target_of_process hprocess]
    exact hrouted op' (List.mem_of_getElem? hop)
  · rw [e.length_nodes _ List.mem_cons_self, e.prepared_nodeCount]

/-- No false alarm: when every operation of a run is routed to one node that runs the model itself,
the checker accepts what the run records. Assumes: the responses of the model are equal to
themselves, and the codec agrees with it. -/
theorem runDeterministic_linearizable {fuel : ℕ} {nodeDef : Option NodeDef}
    {run : TypedRun (modelNode M Msg Timer debug)}
    (hrefl : ∀ state op, (M.step state op).2.eq (M.step state op).2 = true)
    (hagrees : Agrees codec) (hrouted : ∀ op ∈ resolveOps data workload seed,
      target op op.process (nodeCount data).toNat = t)
    (h : runDeterministic fuel data nodeDef workload (some codec) seed = .ok (.ok run)) :
    ((linearizableOracle M).check (run.output seed)).isValid = true := by
  obtain ⟨e, rfl⟩ := exists_execution h
  obtain ⟨-, hfinal⟩ := e.final_eq
  obtain ⟨hpending, state, hanswered, -⟩ :=
    e.answersInTurn hagrees hrouted _ (List.mem_of_getElem? e.states_last)
  have hclosed : e.result.history = (lastState e.started e.steps).core.history := by
    change (e.final.core.closeAll (e.final.core.pendingOps.map (·.1))).history = _
    rw [hfinal, hpending]
    rfl
  refine @check_isValid_of_answeredInTurn M hrefl state _ ?_
  change AnsweredInTurn M state e.result.history.entries
  rw [hclosed]
  exact hanswered

end Executions

/-! ### A register -/

/-- A node that is a register, without messages and timers of its own. -/
def registerNode : Node := modelNode registerModel Unit Unit fun _ ↦ "()"

/-- The codec of the register: an integer is written, and nil reads. -/
def registerCodec : ClientCodec registerNode where
  decode v :=
    match v with
    | .int v => some (⟨"write"⟩, .write v)
    | .nil => some (⟨"read"⟩, .read)
    | _ => none
  encodeResponse _ response := response.value

/-- Two clients of the register at the second node, which crashes and restarts: a write, a read, and
an operation that does not decode. -/
def registerPlan : PlanData :=
  counterPlan 2 [⟨.fromMillis 2, .crash ⟨1⟩⟩, ⟨.fromMillis 4, .restart ⟨1⟩⟩]
    [⟨⟨0⟩, some ⟨1⟩, .int 5⟩, .new ⟨1⟩ .nil, ⟨⟨0⟩, some ⟨1⟩, .bool true⟩]

theorem registerCodec_agrees : Agrees registerCodec := by
  intro v f op hdecode state
  cases v with
  | int v =>
    obtain ⟨rfl, rfl⟩ := Prod.mk.inj (Option.some.inj hdecode)
    rfl
  | nil =>
    obtain ⟨rfl, rfl⟩ := Prod.mk.inj (Option.some.inj hdecode)
    rfl
  | _ => cases hdecode

theorem registerPlan_linearizable :
    ∃ run, runDeterministic 8 registerPlan none none (some registerCodec) ⟨0⟩ = .ok (.ok run) ∧
      ((linearizableOracle registerModel).check (run.output ⟨0⟩)).isValid = true := by
  obtain ⟨run, hrun⟩ := exists_run_of_isSome (N := registerNode)
    (x := runDeterministic 8 registerPlan none none (some registerCodec) ⟨0⟩) (by decide +kernel)
  have hrefl (state : Int64) (op : RegOp) : (registerModel.step state op).2.eq
      (registerModel.step state op).2 = true := by
    cases op <;> simp [registerModel, Response.eq, Value.eq]
  have hrouted : ∀ op ∈ resolveOps registerPlan none ⟨0⟩,
      target op op.process (nodeCount registerPlan).toNat = 1 := by
    have hops : resolveOps registerPlan none ⟨0⟩ =
        [⟨⟨0⟩, some ⟨1⟩, .int 5⟩, .new ⟨1⟩ .nil, ⟨⟨0⟩, some ⟨1⟩, .bool true⟩] := rfl
    rw [hops]
    simp only [List.forall_mem_cons, List.not_mem_nil, false_imp_iff, implies_true, and_true]
    decide +kernel
  exact ⟨run, hrun, runDeterministic_linearizable hrefl registerCodec_agrees hrouted hrun⟩

end Propsim.Simulator
