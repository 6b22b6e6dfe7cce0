import Propsim.Oracle.Points
import Propsim.Simulator.Asynchrony
import Propsim.Simulator.Instants

/-!
# Clusters that commit operations when they are called

A replicated object whose client operations are all served by one node, which applies each of them
when it is called: it answers at once from its own state, or it answers later, in a way that the
invocation alone determines. What the other nodes, the network and the faults do to the completions
does not matter then. The history of every run is accepted by the linearizable mode
(`CommitsOnCall.check_isValid`).
-/

set_option autoImplicit false
set_option relaxedAutoImplicit false

namespace Propsim.Simulator

open Foundation Interchange Propsim.Core Propsim.Oracle

variable {N : Node} {M : SequentialModel} {codec : ClientCodec N} {ops : List FrozenOp}
  {effect : Value → Option M.Op}

/-! ### What the core records -/

/-- The operations that the core has recorded took effect at their invocations, and lead to a
state of the model. -/
structure Committing (M : SequentialModel) (effect : Value → Option M.Op) (state : M.State)
    (core : SchedCore N) : Prop where
  effects : TakesEffectAtInvoke M effect core.history.entries
  committed_eq : committed M effect core.history.entries = state

theorem CoreSteps.recorded {core core' : SchedCore N} (h : CoreSteps core core')
    (hrecorded : Recorded core) : Recorded core' :=
  h.invariant (fun _ _ hcore hstep ↦ hcore.coreStep hstep) hrecorded

/-- Resolving an event records that some open operations are indeterminate, and nothing else. -/
theorem Resolves.closes {core core' : SchedCore N} {event : Scheduled N}
    {popped : Option (PoppedEvent N)} (h : Resolves core event popped core') :
    ∃ (before : SchedCore N) (tokens : List ℕ), core' = before.closeAll tokens ∧
      before.history = core.history ∧ before.pendingOps = core.pendingOps ∧
        before.nextToken = core.nextToken ∧ before.now = event.fireAt := by
  cases h with
  | skipped => exact ⟨_, [], rfl, rfl, rfl, rfl, rfl⟩
  | deliver => exact ⟨_, [], rfl, rfl, rfl, rfl, rfl⟩
  | timer => exact ⟨_, [], rfl, rfl, rfl, rfl, rfl⟩
  | clientOp => exact ⟨_, [], rfl, rfl, rfl, rfl, rfl⟩
  | @fault action =>
    cases action with
    | partition => exact ⟨_, [], rfl, rfl, rfl, rfl, rfl⟩
    | healAll => exact ⟨_, [], rfl, rfl, rfl, rfl, rfl⟩
    | restart => exact ⟨_, [], rfl, rfl, rfl, rfl, rfl⟩
    | crash n =>
      refine ⟨_, _, rfl, ?_⟩
      split_ifs
      · exact ⟨rfl, rfl, rfl, rfl⟩
      · exact ⟨rfl, rfl, rfl, rfl⟩

theorem Resolves.recorded {core core' : SchedCore N} {event : Scheduled N}
    {popped : Option (PoppedEvent N)} (h : Resolves core event popped core')
    (hrecorded : Recorded core) (hlater : core.now ≤ event.fireAt) : Recorded core' := by
  obtain ⟨before, tokens, rfl, hhistory, hpending, htoken, hnow⟩ := h.closes
  exact (hrecorded.congr hhistory hpending htoken (hnow ▸ hlater)).closeAll tokens

namespace Committing

variable {state : M.State} {core core' : SchedCore N}

/-- An operation is opened, and closed again. -/
theorem pair (h : Committing M effect state core) {inv c : OpEntry}
    (hentries : core'.history.entries = core.history.entries ++ [inv, c])
    (hinv : inv.kind = .invoke) (hkind : c.kind ≠ .invoke) (hsame : c.process = inv.process)
    (hfailed : c.kind = .fail → effect inv.value = none)
    (hanswered : c.kind ≠ .fail → ∃ op response, effect inv.value = some op ∧
      M.decode c.f.name inv.value c.value = some (op, response) ∧
        (M.step state op).2.eq response = true) :
    Committing M effect (commit M effect state inv) core' := by
  obtain ⟨heffects, rfl⟩ := h
  constructor
  · rw [hentries]
    exact heffects.pair hinv hkind hsame hfailed hanswered
  · rw [hentries]
    exact committed_append_pair hkind

/-- An operation is opened that is answered whatever completes it. -/
theorem invoke (h : Committing M effect state core) (process : ProcessId) (f : Function)
    (value : Value) {op : M.Op} (heffect : effect value = some op) (hblind : Blind M f value op) :
    Committing M effect (M.step state op).1 (core.openOp process f value).2 := by
  obtain ⟨heffects, rfl⟩ := h
  refine ⟨heffects.invoke rfl heffect hblind, (committed_append_singleton _).trans ?_⟩
  exact commit_of_invoke rfl heffect _

theorem congr (h : Committing M effect state core) (hhistory : core'.history = core.history) :
    Committing M effect state core' := by
  constructor
  · rw [hhistory]
    exact h.effects
  · rw [hhistory]
    exact h.committed_eq

/-- An open operation is closed, and does not fail. -/
theorem closeOp (h : Committing M effect state core) (hrecorded : Recorded core) (token : OpToken)
    {kind : OpKind} (value : Value) (hkind : kind ≠ .invoke) (hfail : kind ≠ .fail) :
    Committing M effect state (core.closeOp token kind value) := by
  unfold SchedCore.closeOp
  split
  · exact h
  rename_i p hp
  refine ⟨h.effects.complete hkind hfail fun i inv hopen hsame ↦ ?_, ?_⟩
  · obtain ⟨i', inv', hopen', hprocess, hf⟩ :=
      (hrecorded.open_iff p.process p.f).mp ⟨token.id, mem_of_pending hp⟩
    rw [(hopen.unique hopen' (hsame.symm.trans hprocess.symm)).2, hf]
  · refine (committed_append_singleton _).trans ?_
    rw [commit_of_ne_invoke hkind]
    exact h.committed_eq

theorem closeAll (h : Committing M effect state core) (hrecorded : Recorded core)
    (tokens : List ℕ) : Committing M effect state (core.closeAll tokens) := by
  induction tokens generalizing core with
  | nil => exact h
  | cons token rest ih =>
    exact ih (h.closeOp hrecorded ⟨token⟩ .nil (by decide) (by decide))
      (hrecorded.closeOp ⟨token⟩ .nil (by decide))

theorem history_armTimer {node : NodeId} {timer : N.Timer} {after : Duration}
    (h : core.armTimer node timer after = .ok core') : core'.history = core.history := by
  obtain ⟨fireAt, -, rfl⟩ := armTimer_eq_ok h
  rfl

/-- Completing an operation as its node says. -/
theorem completeOp (h : Committing M effect state core) (hrecorded : Recorded core)
    (token : OpToken) {completion : Completion N.Response} (hspares : completion ≠ .fail) :
    Committing M effect state (completeOp (some codec) core token completion) := by
  cases completion with
  | ok response => exact h.closeOp hrecorded token _ (by decide) (by decide)
  | fail => exact absurd rfl hspares
  | info => exact h.closeOp hrecorded token _ (by decide) (by decide)

/-- Resolving an event. -/
theorem resolves (h : Committing M effect state core) (hrecorded : Recorded core)
    {event : Scheduled N} {popped : Option (PoppedEvent N)} (hlater : core.now ≤ event.fireAt)
    (hresolves : Resolves core event popped core') : Committing M effect state core' := by
  obtain ⟨before, tokens, rfl, hhistory, hpending, htoken, hnow⟩ := hresolves.closes
  exact (h.congr hhistory).closeAll
    (hrecorded.congr hhistory hpending htoken (hnow ▸ hlater)) tokens

/-- A callback that fails no operation. -/
theorem run (h : Committing M effect state core) (hrecorded : Recorded core) {me : NodeId}
    {α : Type} {effects : Effects N.Msg N.Timer N.Response α} {a : α}
    (hrun : effects.run (harnessCtx (some codec) me) core = .ok (a, core')) :
    ∃ out, Yields me (peersOf core.nodeCount me) effects out a ∧
      ((∀ token, .completeOp token .fail ∉ out) → Committing M effect state core') := by
  have hinit {out : List (Emission N.Msg N.Timer N.Response)} {e}
      (hall : ∀ token, .completeOp token .fail ∉ out ++ [e]) (token : OpToken) :
      .completeOp token .fail ∉ out := fun hin ↦ hall token (List.mem_append_left _ hin)
  have hspares {out : List (Emission N.Msg N.Timer N.Response)} {token' : OpToken}
      {completion : Completion N.Response}
      (hall : ∀ token, .completeOp token .fail ∉ out ++ [.completeOp token' completion]) :
      completion ≠ .fail := by
    rintro rfl
    exact hall token' (List.mem_append_right _ (List.mem_singleton_self _))
  obtain ⟨out, hyields, -, hcore'⟩ := run_yields (R := fun out c ↦ Recorded c ∧
      ((∀ token, Emission.completeOp token .fail ∉ out) → Committing M effect state c))
    (fun recipient msg out c c' hc hsend ↦ ⟨(scheduleDelivery_steps hsend).recorded hc.1,
      fun hall ↦ (hc.2 (hinit hall)).congr (by rw [scheduleDelivery_frame hsend])⟩)
    (fun timer after out c c' hc hset ↦ ⟨(armTimer_steps hset).recorded hc.1,
      fun hall ↦ (hc.2 (hinit hall)).congr (history_armTimer hset)⟩)
    (fun timer out c hc ↦ ⟨(cancelTimer_steps c me timer).recorded hc.1,
      fun hall ↦ (hc.2 hall).congr rfl⟩)
    (fun out c hc ↦ ⟨hc.1.congr rfl rfl rfl le_rfl, fun hall ↦ (hc.2 hall).congr rfl⟩)
    (fun token completion out c hc ↦ ⟨(completeOp_steps (some codec) c token completion).recorded
      hc.1, fun hall ↦ (hc.2 (hinit hall)).completeOp hc.1 token (hspares hall)⟩)
    ⟨hrecorded, fun _ ↦ h⟩ hrun
  exact ⟨out, hyields, hcore'⟩

end Committing

/-- A callback that completes no operation leaves the history and the open operations alone. -/
theorem run_of_silent {codec : Option (ClientCodec N)} {core core' : SchedCore N} {me : NodeId}
    {α : Type} {effects : Effects N.Msg N.Timer N.Response α} {a : α}
    (hrun : effects.run (harnessCtx codec me) core = .ok (a, core')) :
    ∃ out, Yields me (peersOf core.nodeCount me) effects out a ∧
      ((∀ token completion, .completeOp token completion ∉ out) →
        core'.history = core.history ∧ core'.pendingOps = core.pendingOps) := by
  have hinit {out : List (Emission N.Msg N.Timer N.Response)} {e}
      (hall : ∀ token completion, .completeOp token completion ∉ out ++ [e]) (token completion) :
      .completeOp token completion ∉ out :=
    fun hin ↦ hall token completion (List.mem_append_left _ hin)
  refine run_yields (R := fun out c ↦
      (∀ token completion, Emission.completeOp token completion ∉ out) →
        c.history = core.history ∧ c.pendingOps = core.pendingOps)
    (fun recipient msg out c c' hc hsend hall ↦ ?_) (fun timer after out c c' hc hset hall ↦ ?_)
    (fun timer out c hc hall ↦ hc hall) (fun out c hc hall ↦ hc hall)
    (fun token completion out c hc hall ↦ ?_) (fun _ ↦ ⟨rfl, rfl⟩) hrun
  · rw [scheduleDelivery_frame hsend]
    exact hc (hinit hall)
  · obtain ⟨fireAt, -, rfl⟩ := armTimer_eq_ok hset
    exact hc (hinit hall)
  · exact absurd (List.mem_append_right _ (List.mem_singleton_self _)) (hall token completion)

/-- What is recorded when an operation is opened and closed again. -/
theorem entries_of_answer {core core' : SchedCore N} (hrecorded : Recorded core)
    (process : ProcessId) (f : Function) (value value' : Value) (kind : OpKind)
    (hhistory : core'.history = (core.openOp process f value).2.history)
    (hpending : core'.pendingOps = (core.openOp process f value).2.pendingOps) :
    ∃ inv c, (core'.closeOp (core.openOp process f value).1 kind value').history.entries =
        core.history.entries ++ [inv, c] ∧
      inv.kind = .invoke ∧ inv.value = value ∧ c.kind = kind ∧ c.process = inv.process ∧
        c.f = f ∧ c.value = value' := by
  have hopen : core'.pending (core.openOp process f value).1 = some ⟨process, f⟩ := by
    rw [SchedCore.pending, hpending]
    exact pending_openOp hrecorded.issued process f value
  rw [SchedCore.closeOp, hopen]
  dsimp only [SchedCore.record]
  rw [hhistory]
  exact ⟨_, _, List.append_assoc _ _ _, rfl, rfl, rfl, rfl, rfl, rfl⟩

/-! ### Nodes that commit -/

/-- What a node answers to an operation that the model takes a step for: at once, with the response
of the model, or later, when the invocation alone determines the response. -/
def Replies (M : SequentialModel) (codec : ClientCodec N) (f : Function) (value : Value)
    (state : M.State) (op : M.Op) : OpOutcome N.Response → Prop
  | .done reply => ∃ response,
    M.decode f.name value (codec.encodeResponse f reply) = some (op, response) ∧
      (M.step state op).2.eq response = true
  | .pending => Blind M f value op

/-- One node of a cluster serves all operations. It applies an operation when it is called, and its
other callbacks leave the state of the model alone. No node lets an operation fail. The properties
of the nodes and of what they put out are kept by the protocol of the cluster. -/
structure CommitsOnCall (M : SequentialModel) (codec : ClientCodec N) (ops : List FrozenOp)
    (count : UInt64) (server : NodeId) (effect : Value → Option M.Op) (state : N.State → M.State)
    (good : NodeId → N.State → Prop) (sound : NodeId × Envelope N → Prop) : Prop where
  keeps : (asyncProtocol N (some codec) ops count).Keeps good sound
  init : state N.default = M.init
  onStart : ∀ me node node' out, good me node →
    Yields me (peersOf count me) (N.onStart node) out node' →
      (∀ token, .completeOp token .fail ∉ out) ∧ (me = server → state node' = state node)
  onTake : ∀ me envelope node node' out, good me node → sound (me, envelope) →
    Yields me (peersOf count me) (envelope.callback node) out node' →
      (∀ token, .completeOp token .fail ∉ out) ∧ (me = server → state node' = state node)
  onCall : ∀ op ∈ ops, ∀ f typedOp token node node' outcome out, good server node →
    codec.decode op.op = some (f, typedOp) →
      Yields server (peersOf count server) (N.onClientOp node typedOp token) out
        (node', outcome) →
        (∀ token completion, .completeOp token completion ∉ out) ∧
          ∃ mop, effect op.op = some mop ∧ state node' = (M.step (state node) mop).1 ∧
            Replies M codec f op.op (state node) mop outcome
  undecoded : ∀ op ∈ ops, codec.decode op.op = none → effect op.op = none

/-- The node that serves the operations has the state that the recorded operations lead to. -/
def Serves (M : SequentialModel) (effect : Value → Option M.Op) (server : NodeId)
    (state : N.State → M.State) (core : SchedCore N) (nodes : List (Option N.State)) : Prop :=
  ∀ node, nodes[server.id.toNat]? = some (some node) → Committing M effect (state node) core

section Steps

variable {count : UInt64} {server : NodeId} {state : N.State → M.State}
  {good : NodeId → N.State → Prop} {sound : NodeId × Envelope N → Prop}
  {core core' : SchedCore N} {nodes nodes' : List (Option N.State)}
  {c : Configuration NodeId N.State (Envelope N)} {runState next : RunState N}
  {event : Scheduled N}

/-- A callback that keeps the state of the model. -/
theorem Serves.runCallback (hserves : Serves M effect server state core nodes)
    (hrecorded : Recorded core) (hserver : server.id < count) (hsim : Simulates count c core nodes)
    {me : NodeId} {callback : N.State → Effects N.Msg N.Timer N.Response N.State}
    (hcallback : ∀ node' out, Yields me (peersOf count me) (callback (c.states me)) out node' →
      (∀ token, .completeOp token .fail ∉ out) ∧
        (me = server → state node' = state (c.states me)))
    (hrun : Simulator.runCallback (some codec) core nodes me callback = .ok (core', nodes')) :
    Serves M effect server state core' nodes' := by
  obtain ⟨-, ⟨hslot, -⟩ | ⟨node, node', hslot, hcallback', rfl⟩⟩ := runCallback_eq_ok hrun
  · cases (hsim.of_slot hslot).2
  obtain ⟨hme, hnode⟩ := hsim.of_slot hslot
  obtain rfl := Option.some.inj hnode
  have hcommitting := hserves _ (hsim.slots server hserver)
  obtain ⟨out, hyields, hcore'⟩ := hcommitting.run hrecorded hcallback'
  rw [hsim.pooled.nodeCount_eq] at hyields
  obtain ⟨hspares, hstate⟩ := hcallback node' out hyields
  intro after hafter
  by_cases hsame : me = server
  · subst hsame
    rw [List.getElem?_set_self (List.getElem?_eq_some_iff.mp hslot).1] at hafter
    obtain rfl := Option.some.inj (Option.some.inj hafter)
    rw [hstate rfl]
    exact hcore' hspares
  · have hne : me.id.toNat ≠ server.id.toNat := fun heq ↦ hsame (NodeId.eq_of_toNat_eq heq)
    rw [List.getElem?_set_ne hne, hsim.slots server hserver] at hafter
    obtain rfl := Option.some.inj (Option.some.inj hafter)
    exact hcore' hspares

/-- The node that serves the operations is handed one. -/
theorem Serves.dispatchClientOp
    (h : CommitsOnCall M codec ops count server effect state good sound)
    (hserves : Serves M effect server state core nodes) (hrecorded : Recorded core)
    (hsim : Simulates count c core nodes) (hgood : good server (c.states server))
    {process : NodeId} {op : FrozenOp} (hop : op ∈ ops)
    (htarget : target op process nodes.length = server.id.toNat)
    (hdispatch : Simulator.dispatchClientOp (some codec) core nodes process op =
      .ok (core', nodes')) : Serves M effect server state core' nodes' := by
  unfold Simulator.dispatchClientOp at hdispatch
  simp only [Option.bind_some, htarget] at hdispatch
  split at hdispatch
  · rename_i hdecode
    obtain ⟨rfl, rfl⟩ := Prod.mk.inj (Except.ok.inj hdispatch)
    intro node hnode
    obtain ⟨inv, c, hentries, hinv, hvalue, hc, hsame, -⟩ :=
      entries_of_answer hrecorded ⟨process.id⟩ (opFunction op) op.op .nil .fail rfl rfl
    have hnone : effect inv.value = none := hvalue ▸ h.undecoded op hop hdecode
    have hpair := (hserves node hnode).pair hentries hinv (hc ▸ by decide) hsame (fun _ ↦ hnone)
      fun hfail ↦ absurd hc hfail
    rwa [commit_of_none hnone] at hpair
  rename_i f typedOp hdecode
  split at hdispatch
  · cases hdispatch
  · rename_i hslot
    cases (hsim.of_slot hslot).2
  rename_i node hslot
  obtain ⟨hserver, hnode⟩ := hsim.of_slot hslot
  obtain rfl := Option.some.inj hnode
  have hcommitting := hserves _ (hsim.slots server hserver)
  rw [UInt64.ofNat_toNat] at hdispatch
  split at hdispatch
  · cases hdispatch
  rename_i node' outcome after hrun
  obtain ⟨out, hyields, hsilent⟩ := run_of_silent hrun
  have hcount : (core.openOp ⟨process.id⟩ f op.op).2.nodeCount = count := hsim.pooled.nodeCount_eq
  rw [hcount] at hyields
  obtain ⟨hnone, mop, heffect, hstate, hreplies⟩ :=
    h.onCall op hop f typedOp _ _ node' outcome out hgood hdecode hyields
  obtain ⟨hhistory, hpending⟩ := hsilent hnone
  have hset {after' : N.State}
      (hafter : (nodes.set server.id.toNat (some node'))[server.id.toNat]? = some (some after')) :
      after' = node' := by
    rw [List.getElem?_set_self (List.getElem?_eq_some_iff.mp hslot).1] at hafter
    exact (Option.some.inj (Option.some.inj hafter)).symm
  cases outcome with
  | done reply =>
    obtain ⟨rfl, rfl⟩ := Prod.mk.inj (Except.ok.inj hdispatch)
    intro after' hafter
    obtain rfl := hset hafter
    obtain ⟨inv, c, hentries, hinv, hvalue, hc, hsame, hf, hreply⟩ := entries_of_answer hrecorded
      ⟨process.id⟩ f op.op (codec.encodeResponse f reply) .ok hhistory hpending
    obtain ⟨response, hmodel, hresponse⟩ := hreplies
    have hpair := hcommitting.pair hentries hinv (hc ▸ by decide) hsame (fun hfail ↦ ?_)
      fun _ ↦ ⟨mop, response, hvalue ▸ heffect, ?_, hresponse⟩
    · rwa [commit_of_invoke hinv (hvalue ▸ heffect), ← hstate] at hpair
    · exact absurd (hc.symm.trans hfail) (by decide)
    · rw [hf, hvalue, hreply]
      exact hmodel
  | pending =>
    obtain ⟨rfl, rfl⟩ := Prod.mk.inj (Except.ok.inj hdispatch)
    intro after' hafter
    obtain rfl := hset hafter
    rw [hstate]
    exact (hcommitting.invoke ⟨process.id⟩ f op.op heffect hreplies).congr hhistory

/-- What the queue hands to the driver is dispatched. -/
theorem Serves.dispatch (h : CommitsOnCall M codec ops count server effect state good sound)
    (hserver : server.id < count) (hserves : Serves M effect server state core nodes)
    (hrecorded : Recorded core) (hsim : Simulates count c core nodes)
    (hreachable : (asyncProtocol N (some codec) ops count).Reachable c)
    {popped : PoppedEvent N} {event : Scheduled N} {before : SchedCore N}
    (hresolves : Resolves before event (some popped) core)
    (hpool : ∀ item ∈ event.kind.envelope, item ∈ c.pool)
    (htarget : ∀ process index op, event.kind = .clientOp process index → ops[index]? = some op →
      target op process nodes.length = server.id.toNat)
    (hdispatch : Simulator.dispatch (some codec) ops core nodes popped = .ok (core', nodes')) :
    Serves M effect server state core' nodes' := by
  obtain ⟨hgood, hsound⟩ := h.keeps.reachable hreachable
  cases hresolves with
  | deliver hkind =>
    refine hserves.runCallback hrecorded hserver hsim (fun node' out hyields ↦ ?_) hdispatch
    exact h.onTake _ (.message _ _) _ node' out (hgood _)
      (hsound _ (hpool _ (by simp [hkind, EventKind.envelope]))) hyields
  | timer hkind =>
    refine hserves.runCallback hrecorded hserver hsim (fun node' out hyields ↦ ?_) hdispatch
    exact h.onTake _ (.timer _) _ node' out (hgood _)
      (hsound _ (hpool _ (by simp [hkind, EventKind.envelope]))) hyields
  | clientOp hkind =>
    rw [Simulator.dispatch] at hdispatch
    split at hdispatch
    · cases hdispatch
    · rename_i op hop
      exact hserves.dispatchClientOp h hrecorded hsim (hgood server) (List.mem_of_getElem? hop)
        (htarget _ _ op hkind hop) hdispatch
  | fault =>
    generalize (SchedCore.applyFault _ _).1 = rejoined at hdispatch
    cases rejoined with
    | none =>
      obtain ⟨rfl, rfl⟩ := Prod.mk.inj (Except.ok.inj hdispatch)
      exact hserves
    | some n =>
      exact hserves.runCallback hrecorded hserver hsim
        (fun node' out hyields ↦ h.onStart _ _ node' out (hgood _) hyields) hdispatch

/-- A turn of the loop. -/
theorem Turn.serves (hturn : Turn (some codec) ops runState event next)
    (h : CommitsOnCall M codec ops count server effect state good sound)
    (hserver : server.id < count) (hlater : runState.core.now ≤ event.fireAt)
    (hrecorded : Recorded runState.core) (hsim : Simulates count c runState.core runState.nodes)
    (hreachable : (asyncProtocol N (some codec) ops count).Reachable c)
    (htarget : ∀ process index op, event.kind = .clientOp process index → ops[index]? = some op →
      target op process runState.nodes.length = server.id.toNat)
    (hserves : Serves M effect server state runState.core runState.nodes) :
    Serves M effect server state next.core next.nodes := by
  have htaken (queue : PriorityQueue Scheduled.key) :
      Recorded { runState.core with queue := queue } := hrecorded.congr rfl rfl rfl le_rfl
  have hresolved {queue : PriorityQueue Scheduled.key} {popped : Option (PoppedEvent N)}
      {core : SchedCore N}
      (hresolves : Resolves { runState.core with queue := queue } event popped core) :
      Serves M effect server state core runState.nodes := by
    intro node hnode
    have hbefore : Committing M effect (state node) { runState.core with queue := queue } :=
      (hserves node hnode).congr rfl
    exact hbefore.resolves (htaken queue) hlater hresolves
  cases hturn.outcome with
  | skipped hpop hresolve hnext =>
    subst hnext
    exact hresolved (resolves_of_resolve hresolve)
  | @dispatched queue hpop hbelow core core' popped hresolve hdispatch hframes hcore hqueue =>
    have hresolves := resolves_of_resolve hresolve
    obtain ⟨hitem, hpooled⟩ := hsim.pooled.take hpop
    have hsimulates : Simulates count c core runState.nodes :=
      ⟨hpooled.congr (sameQueue_resolve hresolve), hsim.length, hsim.slots⟩
    have hdispatched := (hresolved hresolves).dispatch h hserver
      (hresolves.recorded (htaken queue) hlater) hsimulates hreachable hresolves hitem htarget
      hdispatch
    exact fun node hnode ↦ (hdispatched node hnode).congr (by rw [hcore])

end Steps

/-! ### Runs -/

section Executions

variable {data : PlanData} {workload : Option Strategy} {seed : Seed} {server : NodeId}
  {state : N.State → M.State} {good : NodeId → N.State → Prop}
  {sound : NodeId × Envelope N → Prop}

/-- A state of an execution is one that the protocol of the cluster can get into. -/
theorem Execution.reachable {codec : Option (ClientCodec N)}
    (e : Execution N data workload codec seed) {runState : RunState N}
    (hstate : runState ∈ e.states) :
    ∃ c, (asyncProtocol N codec (resolveOps data workload seed) (nodeCount data)).Reachable c ∧
      Simulates (nodeCount data) c runState.core runState.nodes := by
  obtain ⟨passed, c, hpairwise, -, hsim⟩ := e.traced runState hstate
  refine ⟨c, (List.pairwise_cons.mp hpairwise).1 c ?_, hsim⟩
  exact List.mem_append_right _ (List.mem_singleton_self c)

/-- Before the first turn nothing is recorded, and no start has moved the state of the model. -/
theorem Execution.serves_started (e : Execution N data workload (some codec) seed)
    (h : CommitsOnCall M codec (resolveOps data workload seed) (nodeCount data) server effect state
      good sound) (hserver : server.id < nodeCount data) :
    Serves M effect server state e.started.core e.started.nodes := by
  obtain ⟨core, nodes, hnodes, hpump⟩ := startRun_eq_ok.mp e.start_eq
  have hprepared := e.simulates_prepared
  have hdefault : e.prepared.history = .default :=
    prepared_core (P := fun core ↦ core.history = .default) (fun _ _ _ h ↦ h) (fun _ _ h ↦ h)
      e.prepare_eq fun _ _ ↦ rfl
  have hserves : Serves M effect server state e.prepared
      (List.replicate e.prepared.nodeCount.toNat (some N.default)) := by
    intro node hnode
    obtain rfl := Option.some.inj (List.eq_of_mem_replicate (List.mem_of_getElem? hnode))
    constructor
    · rw [hdefault]
      exact .nil
    · rw [hdefault, h.init]
      rfl
  have hstart : ∃ c,
      (asyncProtocol N (some codec) (resolveOps data workload seed) (nodeCount data)).Reachable c ∧
        Simulates (nodeCount data) c core nodes ∧ Recorded core ∧
          Serves M effect server state core nodes := by
    refine foldlM_invariant (P := fun s : SchedCore N × List (Option N.State) ↦ ∃ c,
      (asyncProtocol N (some codec) (resolveOps data workload seed) (nodeCount data)).Reachable c ∧
        Simulates (nodeCount data) c s.1 s.2 ∧ Recorded s.1 ∧
          Serves M effect server state s.1 s.2)
      (fun id _ s s' ⟨c, hreachable, hsim, hrecorded, hserves⟩ hdispatch ↦ ?_)
      ⟨_, .refl, hprepared, (gated_prepared e.prepare_eq).recorded, hserves⟩ hnodes
    obtain ⟨c', hsteps, hsim'⟩ := hsim.runCallback
      (P := asyncProtocol N (some codec) (resolveOps data workload seed) (nodeCount data))
      (fun state out hme hyields ↦ .act (.start hme hyields)) hdispatch
    refine ⟨c', hreachable.steps hsteps, hsim', (runCallback_eq_ok hdispatch).1.recorded hrecorded,
      hserves.runCallback hrecorded hserver hsim (fun node' out hyields ↦ ?_) hdispatch⟩
    exact h.onStart _ _ node' out ((h.keeps.reachable hreachable).1 _) hyields
  obtain ⟨c, -, -, -, hstarted⟩ := hstart
  obtain ⟨hslots, hframe⟩ := pumpClientOps_frame hpump
  intro node hnode
  rw [hslots] at hnode
  exact (hstarted node hnode).congr (by rw [hframe]; rfl)

/-- The node that serves the operations has the state that the recorded operations lead to,
throughout an execution. -/
theorem Execution.serves (e : Execution N data workload (some codec) seed)
    (h : CommitsOnCall M codec (resolveOps data workload seed) (nodeCount data) server effect state
      good sound) (hserver : server.id < nodeCount data)
    (htarget : ∀ op ∈ resolveOps data workload seed,
      target op op.process (nodeCount data).toNat = server.id.toNat) :
    ∀ (j : ℕ) (runState : RunState N), e.states[j]? = some runState →
      Serves M effect server state runState.core runState.nodes := by
  intro j
  induction j with
  | zero =>
    intro runState hstate
    obtain rfl := Option.some.inj hstate
    exact e.serves_started h hserver
  | succ j ih =>
    intro next hnext
    obtain ⟨before, event, hbefore, htaken, hturn⟩ := e.exists_turn_to hnext
    have hmem := List.mem_of_getElem? hbefore
    obtain ⟨c, hreachable, hsim⟩ := e.reachable hmem
    obtain ⟨log, hnetwork⟩ := e.networked before hmem
    refine hturn.serves h hserver (hturn.now_le hnetwork.queue.later) (e.recorded before hmem) hsim
      hreachable (fun process index op hkind hop ↦ ?_) (ih before hbefore)
    obtain ⟨op', hop', hprocess⟩ := e.process_of_taken (List.mem_of_getElem? htaken) hkind
    obtain rfl := Option.some.inj (hop'.symm.trans hop)
    rw [e.prepared_nodeCount] at hprocess
    rw [hsim.length, target_of_process hprocess]
    exact htarget op' (List.mem_of_getElem? hop)

/-- The linearizable mode accepts every run of a cluster in which one node commits the operations
when they are called. Assumes: every operation of the stream is routed to that node. -/
theorem CommitsOnCall.check_isValid {fuel : ℕ} {nodeDef : Option NodeDef} {run : TypedRun N}
    (h : CommitsOnCall M codec (resolveOps data workload seed) (nodeCount data) server effect state
      good sound) (hserver : server.id < nodeCount data)
    (htarget : ∀ op ∈ resolveOps data workload seed,
      target op op.process (nodeCount data).toNat = server.id.toNat)
    (hrun : runDeterministic fuel data nodeDef workload (some codec) seed = .ok (.ok run)) :
    ((linearizableOracle M).check (run.output seed)).isValid = true := by
  obtain ⟨e, rfl⟩ := exists_execution hrun
  have hlast := List.mem_of_getElem? e.states_last
  obtain ⟨c, -, hsim⟩ := e.reachable hlast
  have hserves := e.serves h hserver htarget _ _ e.states_last _ (hsim.slots server hserver)
  obtain ⟨hqueue, hnow⟩ := e.started_queueInv
  have hrecorded := e.loop.recorded hqueue hnow (gated_started e.prepare_eq e.start_eq)
  have hfinal : Committing M effect (state (c.states server)) e.final.core :=
    hserves.congr (by rw [e.final_eq.2])
  exact check_isValid_of_takesEffectAtInvoke (hfinal.closeAll hrecorded _).effects e.wellFormed

end Executions

end Propsim.Simulator
