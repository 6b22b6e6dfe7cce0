import Propsim.Interchange.JsonRoundTrip
import Propsim.Simulator.ReplicatedKv

/-!
# What a run records, and what is read back of it

Everything that a run records comes from its stream of operations and from the codec: an Invoke
carries the payload of an operation under the function that the codec reads in it, and a completion
carries an encoded response, or nothing, under the function of its Invoke (`Stems`). So a run whose
stream and codec use names that the EDN wire can write, and finite floats, can be handed to another
checker: the EDN text of its history is read back as the history, and the JSON text as its normal
form (`runDeterministic_reingested`).
-/

set_option autoImplicit false
set_option relaxedAutoImplicit false

namespace Propsim.Simulator

open Foundation Interchange Propsim.Core

variable {N : Node} {codec : Option (ClientCodec N)} {ops : List FrozenOp}

/-! ### Where entries come from -/

/-- The function under which an operation is recorded: the one that the codec reads in its payload,
or else the keyword that leads the payload. -/
def functionOf (codec : Option (ClientCodec N)) (op : FrozenOp) : Function :=
  match codec.bind fun c ↦ c.decode op.op with
  | some (f, _) => f
  | none => opFunction op

/-- The function is one under which an operation of the stream is recorded. -/
def Named (codec : Option (ClientCodec N)) (ops : List FrozenOp) (f : Function) : Prop :=
  ∃ op ∈ ops, functionOf codec op = f

/-- An entry stems from the stream and the codec. -/
inductive Stems (codec : Option (ClientCodec N)) (ops : List FrozenOp) (e : OpEntry) : Prop
  | invoke {op : FrozenOp} (hkind : e.kind = .invoke) (hop : op ∈ ops)
      (hf : functionOf codec op = e.f) (hvalue : e.value = op.op)
  | answer {c : ClientCodec N} {response : N.Response} (hkind : e.kind = .ok)
      (hnamed : Named codec ops e.f) (hcodec : codec = some c)
      (hvalue : e.value = c.encodeResponse e.f response)
  | bare (hkind : e.kind ≠ .invoke) (hnamed : Named codec ops e.f) (hvalue : e.value = .nil)

/-- The entries of a core stem from the stream and the codec, and its open operations have functions
of the stream. -/
structure Sourced (codec : Option (ClientCodec N)) (ops : List FrozenOp) (core : SchedCore N) :
    Prop where
  stems : ∀ e ∈ core.history.entries, Stems codec ops e
  named : ∀ entry ∈ core.pendingOps, Named codec ops entry.2.f

/-- Core steps open no operation. -/
theorem CoreSteps.pendingOps_subset {core core' : SchedCore N} (h : CoreSteps core core') :
    core'.pendingOps ⊆ core.pendingOps := by
  refine h.invariant (P := fun c ↦ c.pendingOps ⊆ core.pendingOps) (fun c c' hc hstep ↦ ?_)
    (List.Subset.refl _)
  cases hstep with
  | quiet => exact hc
  | enqueue => exact hc
  | close token value hkind =>
    unfold SchedCore.closeOp
    split
    · exact hc
    · exact List.Subset.trans (List.filter_subset_self _) hc

namespace Sourced

variable {core core' : SchedCore N}

theorem congr (h : Sourced codec ops core) (hhistory : core'.history = core.history)
    (hpending : core'.pendingOps = core.pendingOps) : Sourced codec ops core' := by
  constructor
  · rw [hhistory]
    exact h.stems
  · rw [hpending]
    exact h.named

/-- Opening an operation of the stream. -/
theorem openOp (h : Sourced codec ops core) (process : ProcessId) {op : FrozenOp} (hop : op ∈ ops)
    {f : Function} (hf : functionOf codec op = f) :
    Sourced codec ops (core.openOp process f op.op).2 := by
  constructor
  · intro e he
    rcases List.mem_append.mp he with he | he
    · exact h.stems e he
    · rw [List.mem_singleton.mp he]
      exact .invoke rfl hop hf rfl
  · intro entry hentry
    rw [pendingOps_openOp] at hentry
    rcases List.mem_append.mp hentry with hentry | hentry
    · exact h.named entry hentry
    · rw [List.mem_singleton.mp hentry]
      exact ⟨op, hop, hf⟩

/-- Closing an operation with a value that stems from the codec. -/
theorem closeOp (h : Sourced codec ops core) (token : OpToken) {kind : OpKind} {value : Value}
    (hkind : kind ≠ .invoke)
    (hvalue : value = .nil ∨ kind = .ok ∧ ∃ c response, codec = some c ∧
      ∀ op, core.pending token = some op → value = c.encodeResponse op.f response) :
    Sourced codec ops (core.closeOp token kind value) := by
  unfold SchedCore.closeOp
  split
  · exact h
  rename_i op hop
  have hnamed : Named codec ops op.f := h.named _ (mem_of_pending hop)
  constructor
  · intro e he
    rcases List.mem_append.mp he with he | he
    · exact h.stems e he
    · rw [List.mem_singleton.mp he]
      rcases hvalue with rfl | ⟨rfl, c, response, hcodec, hencoded⟩
      · exact .bare hkind hnamed rfl
      · exact .answer rfl hnamed hcodec (hencoded op hop)
  · exact fun entry hentry ↦ h.named entry (List.mem_filter.mp hentry).1

theorem closeAll (h : Sourced codec ops core) (tokens : List ℕ) :
    Sourced codec ops (core.closeAll tokens) := by
  induction tokens generalizing core with
  | nil => exact h
  | cons token rest ih => exact ih (h.closeOp ⟨token⟩ (by decide) (.inl rfl))

/-- Completing an operation as its node says. -/
theorem completeOp (h : Sourced codec ops core) (token : OpToken)
    (completion : Completion N.Response) :
    Sourced codec ops (completeOp codec core token completion) := by
  cases completion with
  | ok response =>
    refine h.closeOp token (by decide) ?_
    cases codec with
    | none => exact .inl rfl
    | some c =>
      refine .inr ⟨rfl, c, response, rfl, fun op hop ↦ ?_⟩
      simp only [completionValue, SchedCore.pendingF, hop, Option.map_some]
  | fail => exact h.closeOp token (by decide) (.inl rfl)
  | info => exact h.closeOp token (by decide) (.inl rfl)

/-- A callback. -/
theorem run (h : Sourced codec ops core) {me : NodeId} {α : Type}
    {effects : Effects N.Msg N.Timer N.Response α} {a : α}
    (hrun : effects.run (harnessCtx codec me) core = .ok (a, core')) : Sourced codec ops core' := by
  obtain ⟨-, -, hcore'⟩ := run_yields (R := fun _ c ↦ Sourced codec ops c)
    (fun recipient msg _ c c' hc hsend ↦ by
      rw [scheduleDelivery_frame hsend]
      exact hc.congr rfl rfl)
    (fun timer after _ c c' hc hset ↦ by
      obtain ⟨fireAt, -, rfl⟩ := armTimer_eq_ok hset
      exact hc.congr rfl rfl)
    (fun timer _ c hc ↦ hc.congr rfl rfl) (fun _ c hc ↦ hc.congr rfl rfl)
    (fun token completion _ c hc ↦ hc.completeOp token completion) h hrun
  exact hcore'

theorem runCallback (h : Sourced codec ops core) {nodes nodes' : List (Option N.State)}
    {id : NodeId} {callback : N.State → Effects N.Msg N.Timer N.Response N.State}
    (hrun : runCallback codec core nodes id callback = .ok (core', nodes')) :
    Sourced codec ops core' := by
  unfold Simulator.runCallback at hrun
  split at hrun
  · cases hrun
  · obtain ⟨rfl, -⟩ := Prod.mk.inj (Except.ok.inj hrun)
    exact h
  · split at hrun
    · cases hrun
    · rename_i hcallback
      obtain ⟨rfl, -⟩ := Prod.mk.inj (Except.ok.inj hrun)
      exact h.run hcallback

/-- The dispatch of an operation of the stream. Assumes: the token of the operation is fresh. -/
theorem dispatchClientOp (h : Sourced codec ops core)
    (hissued : ∀ entry ∈ core.pendingOps, entry.1 < core.nextToken)
    {nodes nodes' : List (Option N.State)} {process : NodeId} {op : FrozenOp} (hop : op ∈ ops)
    (hdispatch : dispatchClientOp codec core nodes process op = .ok (core', nodes')) :
    Sourced codec ops core' := by
  unfold Simulator.dispatchClientOp at hdispatch
  simp only at hdispatch
  split at hdispatch
  · rename_i hdecode
    obtain ⟨rfl, -⟩ := Prod.mk.inj (Except.ok.inj hdispatch)
    exact (h.openOp ⟨process.id⟩ hop (by rw [functionOf, hdecode])).closeOp _ (by decide) (.inl rfl)
  rename_i f typedOp hdecode
  have hopened : Sourced codec ops (core.openOp ⟨process.id⟩ f op.op).2 :=
    h.openOp ⟨process.id⟩ hop (by rw [functionOf, hdecode])
  split at hdispatch
  · cases hdispatch
  · obtain ⟨rfl, -⟩ := Prod.mk.inj (Except.ok.inj hdispatch)
    exact hopened.closeOp _ (by decide) (.inl rfl)
  split at hdispatch
  · cases hdispatch
  rename_i node' outcome after hrun
  have hafter := hopened.run hrun
  split at hdispatch
  · rename_i response
    obtain ⟨rfl, -⟩ := Prod.mk.inj (Except.ok.inj hdispatch)
    refine hafter.closeOp _ (by decide) ?_
    obtain ⟨c, rfl, -⟩ := Option.bind_eq_some_iff.mp hdecode
    refine .inr ⟨rfl, c, response, rfl, fun p hp ↦ ?_⟩
    -- The token is that of this operation, whatever the callback closed.
    have hin := (run_steps hrun).pendingOps_subset (mem_of_pending hp)
    rw [pendingOps_openOp] at hin
    rcases List.mem_append.mp hin with hin | hin
    · exact absurd (hissued _ hin) (lt_irrefl _)
    · obtain ⟨-, rfl⟩ := Prod.mk.inj (List.mem_singleton.mp hin)
      rfl
  · obtain ⟨rfl, -⟩ := Prod.mk.inj (Except.ok.inj hdispatch)
    exact hafter

/-- The dispatch of what the queue hands to the driver. -/
theorem dispatch (h : Sourced codec ops core)
    (hissued : ∀ entry ∈ core.pendingOps, entry.1 < core.nextToken)
    {nodes nodes' : List (Option N.State)} {popped : PoppedEvent N}
    (hdispatch : dispatch codec ops core nodes popped = .ok (core', nodes')) :
    Sourced codec ops core' := by
  cases popped with
  | deliver sender recipient msg => exact h.runCallback hdispatch
  | timer node timer => exact h.runCallback hdispatch
  | clientOp process index =>
    rw [Simulator.dispatch] at hdispatch
    split at hdispatch
    · cases hdispatch
    · rename_i op hop
      exact h.dispatchClientOp hissued (List.mem_of_getElem? hop) hdispatch
  | fault rejoined =>
    cases rejoined with
    | none =>
      obtain ⟨rfl, -⟩ := Prod.mk.inj (Except.ok.inj hdispatch)
      exact h
    | some n => exact h.runCallback hdispatch

end Sourced

/-! ### Turns and runs -/

/-- A turn records what stems from the stream and the codec. Assumes: no queued event is before the
current time. -/
theorem Turn.sourced {state next : RunState N} {event : Scheduled N}
    (h : Turn codec ops state event next)
    (hlater : ∀ b ∈ state.core.queue.toList, state.core.now ≤ b.fireAt)
    (hgated : Gated state.scheduled state.core) (hstate : Sourced codec ops state.core) :
    Sourced codec ops next.core := by
  have hevent := h.now_le hlater
  have hresolved {queue : PriorityQueue Scheduled.key} {popped : Option (PoppedEvent N)}
      {core : SchedCore N}
      (hresolve : SchedCore.resolve { state.core with queue := queue } event = (popped, core)) :
      Sourced codec ops core := by
    obtain ⟨before, tokens, rfl, hhistory, hpending, -⟩ := (resolves_of_resolve hresolve).closes
    exact (hstate.congr hhistory hpending).closeAll tokens
  cases h with
  | skip hpop hbelow hresolve => exact hresolved hresolve
  | fire hpop hbelow hresolve hhandle =>
    obtain ⟨core, nodes, pumped, hdispatch, hpump, rfl⟩ := exists_pump_of_handle hhandle
    have hrecorded := (resolves_of_resolve hresolve).recorded
      (hgated.recorded.congr rfl rfl rfl le_rfl) hevent
    have hdispatched := (hresolved hresolve).dispatch hrecorded.issued hdispatch
    have hpumped : Sourced codec ops pumped.core := by
      rw [(pumpClientOps_frame hpump).2]
      exact hdispatched.congr rfl rfl
    exact hpumped

/-- A loop records what stems from the stream and the codec, and so does its end. -/
theorem Loop.sourced {taken : List (Scheduled N)} {state final : RunState N}
    {steps : List (Scheduled N × RunState N)} (h : Loop codec ops state steps final)
    (hqueue : QueueInv taken state.core) (hgated : Gated state.scheduled state.core)
    (hstate : Sourced codec ops state.core) : Sourced codec ops final.core := by
  induction h generalizing taken with
  | stop hstops =>
    cases hstops with
    | drained hpop => exact hstate
    | horizon hpop hpast => exact hstate.congr rfl rfl
  | turn hturn _ ih =>
    exact ih (hturn.queueInv hqueue) (hturn.gated hqueue.later hgated)
      (hturn.sourced hqueue.later hgated hstate)

section Executions

variable {data : PlanData} {workload : Option Strategy} {seed : Seed}

/-- Every entry of an execution stems from its stream and its codec. -/
theorem Execution.sourced (e : Execution N data workload codec seed) :
    ∀ entry ∈ e.result.history.entries, Stems codec (resolveOps data workload seed) entry := by
  obtain ⟨core, nodes, hnodes, hpump⟩ := startRun_eq_ok.mp e.start_eq
  have hprepared : Sourced codec (resolveOps data workload seed) e.prepared := by
    refine prepared_core (fun c fireAt action h ↦ h.congr rfl rfl)
      (fun c model h ↦ h.congr rfl rfl) e.prepare_eq fun horizon _ ↦ ⟨?_, ?_⟩
    · exact List.forall_mem_nil _
    · exact List.forall_mem_nil _
  have hstarted : Sourced codec (resolveOps data workload seed) core :=
    foldlM_invariant (P := fun s : SchedCore N × List (Option N.State) ↦
        Sourced codec (resolveOps data workload seed) s.1)
      (fun _ _ _ _ hs hdispatch ↦ hs.runCallback hdispatch) hprepared hnodes
  have hpumped : Sourced codec (resolveOps data workload seed) e.started.core := by
    rw [(pumpClientOps_frame hpump).2]
    exact hstarted.congr rfl rfl
  have hfinal := e.loop.sourced e.started_queueInv.1 (gated_started e.prepare_eq e.start_eq) hpumped
  exact (hfinal.closeAll _).stems

/-- Nothing is recorded but what the stream and the codec give: the entry of an Invoke is an
operation of the stream, and a completion carries an encoded response or nothing. -/
theorem runDeterministic_stems {fuel : ℕ} {nodeDef : Option NodeDef} {run : TypedRun N}
    (h : runDeterministic fuel data nodeDef workload codec seed = .ok (.ok run)) :
    ∀ entry ∈ run.history.entries, Stems codec (resolveOps data workload seed) entry := by
  obtain ⟨e, rfl⟩ := exists_execution h
  exact e.sourced

/-! ### Reading a recorded history back -/

/-- The stream and the codec use names that the EDN wire can write, and finite floats. -/
structure Exports (codec : Option (ClientCodec N)) (ops : List FrozenOp) : Prop where
  payloads : ∀ op ∈ ops, op.op.KeywordsPlain ∧ op.op.FloatsFinite
  functions : ∀ c ∈ codec, ∀ op ∈ ops, ∀ f typedOp, c.decode op.op = some (f, typedOp) →
    PlainName f.name
  responses : ∀ c ∈ codec, ∀ op ∈ ops, ∀ response,
    (c.encodeResponse (functionOf codec op) response).KeywordsPlain ∧
      (c.encodeResponse (functionOf codec op) response).FloatsFinite

/-- The function that leads a plain payload is plain. -/
theorem plainName_opFunction {op : FrozenOp} (h : op.op.KeywordsPlain) :
    PlainName (opFunction op).name := by
  unfold opFunction
  split
  · rename_i k hop
    exact h k (by simp [hop, Value.parts])
  · rename_i k rest hop
    refine h k ?_
    rw [hop, Value.mem_parts_list]
    exact .inr ⟨.keyword k, List.mem_cons_self, by simp [Value.parts]⟩
  · decide

namespace Exports

/-- Functions of the stream are plain. -/
theorem plainName (h : Exports codec ops) {f : Function} (hf : Named codec ops f) :
    PlainName f.name := by
  obtain ⟨op, hop, rfl⟩ := hf
  unfold functionOf
  split
  · rename_i f typedOp hdecode
    obtain ⟨c, hcodec, hdecode⟩ := Option.bind_eq_some_iff.mp hdecode
    exact h.functions c hcodec op hop f typedOp hdecode
  · exact plainName_opFunction (h.payloads op hop).1

/-- An entry that stems from the stream and the codec can be written. -/
theorem of_stems (h : Exports codec ops) {e : OpEntry} (hstems : Stems codec ops e) :
    (PlainName e.f.name ∧ e.value.KeywordsPlain) ∧ e.value.FloatsFinite := by
  cases hstems with
  | invoke hkind hop hf hvalue =>
    rw [hvalue]
    exact ⟨⟨h.plainName ⟨_, hop, hf⟩, (h.payloads _ hop).1⟩, (h.payloads _ hop).2⟩
  | @answer c response hkind hnamed hcodec hvalue =>
    have hplain := h.plainName hnamed
    obtain ⟨op, hop, hf⟩ := hnamed
    have hresponse := h.responses c hcodec op hop response
    rw [hf] at hresponse
    rw [hvalue]
    exact ⟨⟨hplain, hresponse.1⟩, hresponse.2⟩
  | bare hkind hnamed hvalue =>
    rw [hvalue]
    exact ⟨⟨h.plainName hnamed, by simp [Value.KeywordsPlain, Value.parts]⟩,
      by simp [Value.FloatsFinite, Value.parts]⟩

end Exports

/-- The history that a run records is read back from its EDN text, and from its JSON text up to what
JSON cannot tell apart. Assumes: a stream and a codec whose names the EDN wire can write and whose
floats are finite. -/
theorem runDeterministic_reingested (floats : FloatText)
    (hexports : Exports codec (resolveOps data workload seed)) {fuel : ℕ}
    {nodeDef : Option NodeDef} {run : TypedRun N}
    (h : runDeterministic fuel data nodeDef workload codec seed = .ok (.ok run)) :
    fromJepsen floats (run.history.toJepsenEdn floats) = .ok run.history ∧
      fromJepsen floats (run.history.toJepsenJson floats) =
        .ok (run.history.jsonNormal floats) := by
  obtain ⟨e, rfl⟩ := exists_execution h
  have hentries (entry : OpEntry) (hentry : entry ∈ e.result.history.entries) :=
    hexports.of_stems (e.sourced entry hentry)
  exact ⟨fromJepsen_lines (fun entry hentry ↦ (hentries entry hentry).1)
    fun entry hentry ↦ (hentries entry hentry).2,
    fromJepsen_array fun entry hentry ↦ (hentries entry hentry).2⟩

end Executions

/-- What a run of a write and a read of the replicated store records. -/
theorem overlappingPlan_stems :
    ∃ run, runDeterministic 40 overlappingPlan none none (some kvCodec) ⟨0xC0FFEE⟩ =
        .ok (.ok run) ∧
      ∀ entry ∈ run.history.entries,
        Stems (some kvCodec) (resolveOps overlappingPlan none ⟨0xC0FFEE⟩) entry := by
  obtain ⟨run, hrun⟩ := exists_run_of_isSome (N := kvNode)
    (x := runDeterministic 40 overlappingPlan none none (some kvCodec) ⟨0xC0FFEE⟩)
    (by decide +kernel)
  exact ⟨run, hrun, runDeterministic_stems hrun⟩

/-- The replicated store uses integers and the names of its operations. -/
theorem exports_overlappingPlan :
    Exports (some kvCodec) (resolveOps overlappingPlan none ⟨0xC0FFEE⟩) where
  payloads := by
    have hops : resolveOps overlappingPlan none ⟨0xC0FFEE⟩ =
        [⟨⟨0⟩, some ⟨0⟩, writeOp 0 1⟩, ⟨⟨1⟩, some ⟨0⟩, readOp 0⟩] := rfl
    rw [hops]
    decide +kernel
  functions c hcodec op _ f typedOp hdecode := by
    obtain rfl := Option.some.inj hcodec
    simp only [kvCodec] at hdecode
    split at hdecode
    · split_ifs at hdecode
      obtain ⟨rfl, -⟩ := Prod.mk.inj (Option.some.inj hdecode)
      decide
    · split_ifs at hdecode
      obtain ⟨rfl, -⟩ := Prod.mk.inj (Option.some.inj hdecode)
      decide
    · cases hdecode
  responses c hcodec op _ response := by
    obtain rfl := Option.some.inj hcodec
    cases response <;> simp [kvCodec, Value.KeywordsPlain, Value.FloatsFinite, Value.parts]

theorem overlappingPlan_reingested :
    ∃ run, runDeterministic 40 overlappingPlan none none (some kvCodec) ⟨0xC0FFEE⟩ =
        .ok (.ok run) ∧
      fromJepsen sampleFloats (run.history.toJepsenEdn sampleFloats) = .ok run.history ∧
        fromJepsen sampleFloats (run.history.toJepsenJson sampleFloats) =
          .ok (run.history.jsonNormal sampleFloats) := by
  obtain ⟨run, hrun⟩ := exists_run_of_isSome (N := kvNode)
    (x := runDeterministic 40 overlappingPlan none none (some kvCodec) ⟨0xC0FFEE⟩)
    (by decide +kernel)
  exact ⟨run, hrun, runDeterministic_reingested sampleFloats exports_overlappingPlan hrun⟩

end Propsim.Simulator
