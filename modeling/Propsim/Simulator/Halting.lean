import Propsim.Simulator.Reaching
import Propsim.Simulator.SwarmLiveness

/-!
# How a run can halt

The rules from which the freedom of a run from one kind of halt is proved: what every call of the
scheduler in a callback ensures, the callback ensures (`EffectRule.run`), the dispatch of an event
ensures (`dispatch_ensures`), and what every turn ensures from the states that the loop reaches, the
loop ensures (`LoopRule.mainLoop`). The hypotheses speak of the moments at which the run calls the
scheduler (`Happens`), with the numbers that it does draw, and not of all that the node could do.
-/

set_option autoImplicit false
set_option relaxedAutoImplicit false

namespace Propsim.Simulator

open Foundation Interchange Propsim.Core

variable {N : Node} {codec : Option (ClientCodec N)} {ops : List FrozenOp}

/-! ### Callbacks -/

/-- What holds of the core, and what the calls of one node at moments of one kind ensure. -/
structure EffectRule (me : NodeId) (kind : Moment N → Prop) (P : SchedCore N → Prop)
    (Q : Halt → Prop) : Prop where
  quiet : ∀ (core : SchedCore N) rng timerGen lastLink, P core →
    P { core with rng := rng, timerGen := timerGen, lastLink := lastLink }
  close : ∀ core token kind value, P core → P (core.closeOp token kind value)
  deliver : ∀ recipient msg core, kind ⟨core, .send me recipient msg⟩ → P core →
    Ensures P Q (core.scheduleDelivery me recipient msg)
  arm : ∀ timer after core, kind ⟨core, .setTimer me timer after⟩ → P core →
    Ensures P Q (core.armTimer me timer after)

section Rules

variable {me : NodeId} {kind : Moment N → Prop} {P : SchedCore N → Prop} {Q : Halt → Prop}

/-- A broadcast, by induction on the peers. -/
theorem EffectRule.broadcast (h : EffectRule me kind P Q) {msg : N.Msg} {peers : List NodeId}
    {core : SchedCore N} (hkind : ∀ m ∈ sendMoments me msg peers core, kind m) (hcore : P core) :
    Ensures P Q (peers.foldlM (fun core peer ↦ core.scheduleDelivery me peer msg) core) := by
  induction peers generalizing core with
  | nil => exact hcore
  | cons peer rest ih =>
    rw [sendMoments, List.forall_mem_cons] at hkind
    have hfirst := h.deliver peer msg core hkind.1 hcore
    rw [List.foldlM_cons]
    refine hfirst.bind fun mid hmid hafter ↦ ih ?_ hafter
    simpa only [hmid] using hkind.2

/-- A callback ensures what its calls ensure, by induction on its effects. -/
theorem EffectRule.run (codec : Option (ClientCodec N)) (h : EffectRule me kind P Q) {α : Type}
    {effects : Effects N.Msg N.Timer N.Response α} {core : SchedCore N}
    (hkind : ∀ m ∈ effectMoments codec me effects core, kind m) (hcore : P core) :
    Ensures (fun r ↦ P r.2) Q (effects.run (harnessCtx codec me) core) := by
  induction effects generalizing core with
  | done result => exact hcore
  | send recipient msg next ih =>
    rw [effectMoments, List.forall_mem_cons] at hkind
    have hfirst : Ensures P Q ((harnessCtx codec me).send recipient msg core) :=
      h.deliver recipient msg core hkind.1 hcore
    rw [Effects.run]
    cases hmid : (harnessCtx codec me).send recipient msg core with
    | error halt => exact hfirst.of_error hmid
    | ok mid =>
      rw [hmid] at hfirst
      have hmid : core.scheduleDelivery me recipient msg = .ok mid := hmid
      exact ih (by simpa only [hmid] using hkind.2) hfirst
  | broadcast msg next ih =>
    rw [effectMoments, List.forall_mem_append] at hkind
    have hfirst : Ensures P Q ((harnessCtx codec me).broadcast msg core) :=
      h.broadcast hkind.1 hcore
    rw [Effects.run]
    cases hmid : (harnessCtx codec me).broadcast msg core with
    | error halt => exact hfirst.of_error hmid
    | ok mid =>
      rw [hmid] at hfirst
      exact ih (by simpa only [hmid] using hkind.2) hfirst
  | setTimer timer after next ih =>
    rw [effectMoments, List.forall_mem_cons] at hkind
    have hfirst : Ensures P Q ((harnessCtx codec me).setTimer timer after core) :=
      h.arm timer after core hkind.1 hcore
    rw [Effects.run]
    cases hmid : (harnessCtx codec me).setTimer timer after core with
    | error halt => exact hfirst.of_error hmid
    | ok mid =>
      rw [hmid] at hfirst
      have hmid : core.armTimer me timer after = .ok mid := hmid
      exact ih (by simpa only [hmid] using hkind.2) hfirst
  | cancelTimer timer next ih =>
    rw [effectMoments, List.forall_mem_cons] at hkind
    exact ih hkind.2 (h.quiet core _ _ _ hcore)
  | now next ih => exact ih _ hkind hcore
  | nextU64 next ih => exact ih _ hkind (h.quiet core _ _ _ hcore)
  | me next ih => exact ih _ hkind hcore
  | completeOp token completion next ih =>
    refine ih hkind ?_
    cases completion with
    | ok response => exact h.close core token _ _ hcore
    | fail => exact h.close core token _ _ hcore
    | info => exact h.close core token _ _ hcore

variable {core : SchedCore N} {nodes : List (Option N.State)}

/-- A callback of a node that has a slot. -/
theorem EffectRule.runCallback (h : me.id.toNat < nodes.length → EffectRule me kind P Q)
    (hbounds : me.id.toNat < nodes.length ∨ Q .outOfBounds)
    {callback : N.State → Effects N.Msg N.Timer N.Response N.State}
    (hkind : ∀ m ∈ slotMoments codec core nodes me callback, kind m) (hcore : P core) :
    Ensures (fun r ↦ P r.1 ∧ r.2.length = nodes.length) Q
      (Simulator.runCallback codec core nodes me callback) := by
  unfold Simulator.runCallback
  unfold slotMoments at hkind
  split
  · rename_i hslot
    exact hbounds.resolve_left (Nat.not_lt.mpr (List.getElem?_eq_none_iff.mp hslot))
  · exact ⟨hcore, rfl⟩
  · rename_i node hslot
    rw [hslot] at hkind
    have hrun := (h (List.getElem?_eq_some_iff.mp hslot).1).run codec hkind hcore
    cases hresult : (callback node).run (harnessCtx codec me) core with
    | error halt => exact hrun.of_error hresult
    | ok result =>
      rw [hresult] at hrun
      exact ⟨hrun, List.length_set⟩

end Rules

/-- The ids and the index that an event uses are in their tables. -/
def PoppedEvent.InTable (nodeCount opCount : ℕ) : PoppedEvent N → Prop
  | .deliver _ recipient _ => recipient.id.toNat < nodeCount
  | .timer id _ => id.id.toNat < nodeCount
  | .clientOp _ index => index < opCount ∧ 0 < nodeCount
  | .fault (some id) => id.id.toNat < nodeCount
  | .fault none => True

theorem target_lt (op : FrozenOp) (process : NodeId) {count : ℕ} (hpos : 0 < count) :
    target op process count < count := by
  unfold target
  split <;> exact Nat.mod_lt _ hpos

section Dispatch

variable {kind : Moment N → Prop} {P : SchedCore N → Prop} {Q : Halt → Prop} {core : SchedCore N}
  {nodes : List (Option N.State)}

/-- The dispatch of a client operation to a node that has a slot. -/
theorem dispatchClientOp_ensures
    (hrule : ∀ me : NodeId, me.id.toNat < nodes.length → EffectRule me kind P Q)
    (hopen : ∀ core process f value, P core → P (core.openOp process f value).2)
    (hclose : ∀ core token kind value, P core → P (core.closeOp token kind value))
    {process : NodeId} {op : FrozenOp} (hbounds : 0 < nodes.length ∨ Q .outOfBounds)
    (hkind : ∀ m ∈ clientMoments codec core nodes process op, kind m) (hcore : P core) :
    Ensures (fun r ↦ P r.1 ∧ r.2.length = nodes.length) Q
      (dispatchClientOp codec core nodes process op) := by
  unfold dispatchClientOp
  unfold clientMoments at hkind
  simp only at hkind ⊢
  split
  · exact ⟨hclose _ _ _ _ (hopen _ _ _ _ hcore), rfl⟩
  rename_i f typedOp hdecode
  simp only [hdecode] at hkind
  have hopened := hopen core ⟨process.id⟩ f op.op hcore
  split
  · rename_i hslot
    exact hbounds.resolve_left fun hpos ↦
      absurd (target_lt op process hpos) (Nat.not_lt.mpr (List.getElem?_eq_none_iff.mp hslot))
  · exact ⟨hclose _ _ _ _ hopened, rfl⟩
  rename_i node hslot
  simp only [hslot] at hkind
  have hlt : (UInt64.ofNat (target op process nodes.length)).toNat < nodes.length := by
    rw [UInt64.toNat_ofNat']
    exact Nat.lt_of_le_of_lt (Nat.mod_le _ _) (List.getElem?_eq_some_iff.mp hslot).1
  have hrun := (hrule ⟨.ofNat (target op process nodes.length)⟩ hlt).run codec hkind hopened
  split
  · rename_i halt hresult
    exact hrun.of_error hresult
  rename_i node' outcome after hresult
  rw [hresult] at hrun
  split
  · exact ⟨hclose _ _ _ _ hrun, List.length_set⟩
  · exact ⟨hrun, List.length_set⟩

/-- The dispatch of an event whose callback calls the scheduler at moments of one kind. -/
theorem dispatch_ensures
    (hrule : ∀ me : NodeId, me.id.toNat < nodes.length → EffectRule me kind P Q)
    (hopen : ∀ core process f value, P core → P (core.openOp process f value).2)
    (hclose : ∀ core token kind value, P core → P (core.closeOp token kind value))
    {popped : PoppedEvent N} (hbounds : popped.InTable nodes.length ops.length ∨ Q .outOfBounds)
    (hkind : ∀ m ∈ dispatchMoments codec ops core nodes popped, kind m) (hcore : P core) :
    Ensures (fun r ↦ P r.1 ∧ r.2.length = nodes.length) Q
      (dispatch codec ops core nodes popped) := by
  cases popped with
  | deliver sender recipient msg =>
    exact EffectRule.runCallback (hrule recipient) hbounds hkind hcore
  | timer id timer => exact EffectRule.runCallback (hrule id) hbounds hkind hcore
  | clientOp process index =>
    simp only [dispatch]
    split
    · rename_i hindex
      exact hbounds.resolve_left fun hbound ↦
        absurd hbound.1 (Nat.not_lt.mpr (List.getElem?_eq_none_iff.mp hindex))
    · rename_i op hop
      refine dispatchClientOp_ensures hrule hopen hclose (hbounds.imp_left And.right) ?_ hcore
      simpa only [dispatchMoments, hop] using hkind
  | fault rejoined =>
    cases rejoined with
    | none => exact ⟨hcore, rfl⟩
    | some id => exact EffectRule.runCallback (hrule id) hbounds hkind hcore

end Dispatch

/-! ### Lowering -/

/-- A fault action crashes and restarts nodes of one kind only. -/
def FaultAction.Concerns (nodes : NodeId → Prop) : FaultAction → Prop
  | .partition _ _ => True
  | .healAll => True
  | .crash n => nodes n
  | .restart n => nodes n

section Lowering

variable {count : UInt64} {allowed : FaultAction → Prop} {P : SchedCore N → Prop} {Q : Halt → Prop}

theorem max_one_of_pos {n : UInt64} (hpos : 0 < n) : max n 1 = n := by
  change (if n ≤ 1 then 1 else n) = n
  split_ifs with hle
  · refine UInt64.le_antisymm ?_ hle
    rw [UInt64.le_iff_toNat_le]
    exact UInt64.lt_iff_toNat_lt.mp hpos
  · rfl

/-- Lowering one kind succeeds, with faults of nodes of the cluster. -/
theorem lowerKind_ensures (hpos : 0 < count)
    (hcluster : ∀ action, FaultAction.Concerns (·.id < count) action → allowed action)
    (hschedule : ∀ core fireAt action, allowed action → P core →
      P (core.scheduleFault fireAt action)) {mode : Mode} {state : Lowering N}
    (hstate : P state.core) (kind : FaultKind) :
    Ensures (fun next ↦ P next.core) Q (lowerKind mode count state kind) := by
  cases kind with
  | latency range => exact hstate
  | drop p => exact hstate
  | duplicate p => exact hstate
  | reorder => exact hstate
  | partitions =>
    unfold lowerKind
    simp only
    split_ifs
    · exact hschedule _ _ _ (hcluster _ trivial) hstate
    · exact hstate
  | crashRestart =>
    have hmax : max count 1 = count := max_one_of_pos hpos
    have hvictim := (state.rng.rangeU64_mem hpos).2
    rcases hdraw : state.rng.rangeU64 0 count with ⟨victim, rng⟩
    rw [hdraw] at hvictim
    have hcrash := (@nanos_rangeU64 rng 100 1000 100 1000 rfl rfl (by decide)).2
    rcases hdraw' : rng.rangeU64 100 1000 with ⟨crashMillis, rng'⟩
    have hrestart := (@nanos_rangeU64 rng' 500 2000 500 2000 rfl rfl (by decide)).2
    rcases hdraw'' : rng'.rangeU64 500 2000 with ⟨restartMillis, rng''⟩
    rw [hdraw'] at hcrash
    rw [hdraw''] at hrestart
    simp only at hcrash hrestart
    have hbound : (Duration.fromMillis crashMillis).nanos +
        (Duration.fromMillis restartMillis).nanos < 3000 * 1000000 := by omega
    obtain ⟨restartAt, hsum⟩ := exists_addDuration (hbound.le.trans (by decide +kernel))
    have hcrashed := hschedule state.core (.fromMillis crashMillis) (.crash ⟨victim⟩)
      (hcluster _ hvictim) hstate
    simp only [lowerKind, hmax, hdraw, hdraw', hdraw'', hsum]
    split_ifs
    · exact hschedule _ restartAt (.restart ⟨victim⟩) (hcluster _ hvictim) hcrashed
    · exact hcrashed

/-- Lowering a fault description succeeds. Assumes: the faults of nodes of the cluster and those of
the script are allowed. -/
theorem lower_ensures (hpos : 0 < count)
    (hcluster : ∀ action, FaultAction.Concerns (·.id < count) action → allowed action)
    (hschedule : ∀ core fireAt action, allowed action → P core →
      P (core.scheduleFault fireAt action)) {faults : Option Faults} {model : NetworkModel}
    {core : SchedCore N} {rng : SimRng}
    (hscript : ∀ script, faults.bind Faults.script = some script → ∀ event ∈ script,
      allowed (lowerAction event.action)) (hcore : P core) :
    Ensures (fun r ↦ P r.2) Q (lower faults model core rng count) := by
  unfold lower
  split
  · exact hcore
  rename_i faults
  split
  · rename_i script hspec
    refine List.foldlRecOn script _ hcore fun core hP event hevent ↦ ?_
    exact hschedule core _ _ (hscript script hspec event hevent) hP
  split
  · rename_i kinds _
    have hfold : Ensures (fun state : Lowering N ↦ P state.core) Q
        ((selectKinds kinds rng).1.foldlM (lowerKind faults.mode count)
          ⟨model, core, (selectKinds kinds rng).2, false⟩) :=
      ensures_foldlM (fun kind _ state hstate ↦
        lowerKind_ensures hpos hcluster hschedule hstate kind) hcore
    refine hfold.bind fun state _ hstate ↦ ?_
    split_ifs
    · exact hschedule _ _ _ (hcluster _ trivial) hstate
    · exact hstate
  · exact hcore

/-- The preparation of a run ensures what its horizon ensures. -/
theorem prepareCore_ensures {data : PlanData} {seed : Seed}
    (hcluster : ∀ action, FaultAction.Concerns (·.id < nodeCount data) action → allowed action)
    (hhorizon : Ensures (fun _ ↦ True) Q (runHorizon data))
    (hschedule : ∀ core fireAt action, allowed action → P core →
      P (core.scheduleFault fireAt action))
    (hmodel : ∀ core model, P core → P { core with model := model })
    (hscript : ∀ script, data.faults.bind Faults.script = some script → ∀ event ∈ script,
      allowed (lowerAction event.action))
    (hfresh : ∀ horizon, P { SchedCore.new seed.val (data.network.getD .orderedReliable)
      (nodeCount data) with horizon := horizon }) :
    Ensures P Q (prepareCore N data seed) := by
  have hpos : 0 < nodeCount data := UInt64.lt_iff_toNat_lt.mpr (nodeCount_pos data)
  exact hhorizon.bind fun horizon _ _ ↦
    (lower_ensures hpos hcluster hschedule hscript (hfresh horizon)).bind fun r _ hr ↦
      hmodel r.2 r.1 hr

/-- The preparation of a run can only overflow, and does so with its horizon. -/
theorem prepareCore_eq_error_iff {data : PlanData} {seed : Seed} {halt : Halt} :
    prepareCore N data seed = .error halt ↔ runHorizon data = .error halt := by
  rw [prepareCore, except_bind_eq_error]
  refine or_iff_left ?_
  rintro ⟨horizon, -, hrest⟩
  have hpos : 0 < nodeCount data := UInt64.lt_iff_toNat_lt.mpr (nodeCount_pos data)
  rcases except_bind_eq_error.mp hrest with hlower | ⟨_, -, hpure⟩
  · have hsucceeds := @lower_ensures N (nodeCount data) (fun _ ↦ True) (fun _ ↦ True)
      (fun _ ↦ False) hpos (fun _ _ ↦ trivial) (fun _ _ _ _ _ ↦ trivial) data.faults
    exact (hsucceeds (fun _ _ _ _ ↦ trivial) trivial).of_error hlower
  · exact except_pure_ne_error hpure

theorem prepareCore_error {data : PlanData} {seed : Seed} {halt : Halt}
    (h : prepareCore N data seed = .error halt) : halt = .overflow := by
  rw [prepareCore_eq_error_iff, runHorizon, except_bind_eq_error] at h
  rcases h with hsum | ⟨_, -, hpure⟩
  · exact addDuration_error hsum
  · exact absurd hpure except_pure_ne_error

end Lowering

/-! ### The pump and the start -/

/-- A turn ensures what its dispatch and its pump ensure. -/
theorem handle_ensures {P : RunState N → Prop} {Q : Halt → Prop} {state : RunState N}
    {popped : PoppedEvent N}
    (hdispatch : Ensures (fun r ↦ P { state with core := r.1, nodes := r.2 }) Q
      (dispatch codec ops state.core state.nodes popped))
    (hpump : ∀ state p, P state → Ensures P Q (pumpProcess state p))
    (hsnapshot : ∀ state, P state → P (snapshot state)) :
    Ensures P Q (handle codec ops state popped) :=
  hdispatch.bind fun _ _ hafter ↦
    (ensures_foldlM (fun p _ state hstate ↦ hpump state p hstate) hafter).bind
      fun pumped _ hpumped ↦ hsnapshot pumped hpumped

section Start

variable {kind : Moment N → Prop} {P : SchedCore N → Prop} {Q : Halt → Prop}

/-- The start of nodes that have slots, by induction on the nodes. -/
theorem startNodes_ensures {count : ℕ} {ids : List ℕ}
    (hrule : ∀ id < count, EffectRule ⟨.ofNat id⟩ kind P Q)
    (hids : ∀ id ∈ ids, id < count ∧ (UInt64.ofNat id).toNat = id) {core : SchedCore N}
    {nodes : List (Option N.State)} (hcount : nodes.length = count)
    (hkind : ∀ m ∈ startMoments codec ids (core, nodes), kind m) (hcore : P core) :
    Ensures (fun r ↦ P r.1 ∧ r.2.length = count) Q
      (ids.foldlM (fun state id ↦ dispatchStart codec state.1 state.2 ⟨.ofNat id⟩)
        (core, nodes)) := by
  induction ids generalizing core nodes with
  | nil => exact ⟨hcore, hcount⟩
  | cons id ids ih =>
    rw [startMoments, List.forall_mem_append] at hkind
    rw [List.forall_mem_cons] at hids
    obtain ⟨⟨hid, hsame⟩, hrest⟩ := hids
    have hlt : (UInt64.ofNat id).toNat < nodes.length := by rwa [hsame, hcount]
    have hfirst : Ensures (fun r ↦ P r.1 ∧ r.2.length = nodes.length) Q
        (dispatchStart codec core nodes ⟨.ofNat id⟩) :=
      EffectRule.runCallback (fun _ ↦ hrule id hid) (Or.inl hlt) hkind.1 hcore
    rw [List.foldlM_cons]
    refine hfirst.bind fun after hstart hafter ↦ ih hrest (hafter.2.trans hcount) ?_ hafter.1
    simpa only [hstart] using hkind.2

/-- The start of a run ensures what the callbacks and the pump ensure. -/
theorem startRun_ensures {P' : RunState N → Prop} {prepared : SchedCore N}
    (hrule : ∀ id < prepared.nodeCount.toNat, EffectRule ⟨.ofNat id⟩ kind P Q)
    (hkind : ∀ m ∈ startMoments codec (List.range prepared.nodeCount.toNat)
      (prepared, List.replicate prepared.nodeCount.toNat (some N.default)), kind m)
    (hprepared : P prepared)
    (hfirst : ∀ core nodes, P core → nodes.length = prepared.nodeCount.toNat →
      P' (snapshot ⟨core, nodes, groupOps ops prepared.nodeCount.toNat, fun _ ↦ 0, []⟩))
    (hpump : ∀ state p, P' state → Ensures P' Q (pumpProcess state p)) :
    Ensures P' Q (startRun codec ops prepared) := by
  have hnodes := startNodes_ensures hrule
    (fun id (hid : id ∈ List.range prepared.nodeCount.toNat) ↦ ⟨List.mem_range.mp hid,
      UInt64.toNat_ofNat_of_lt' ((List.mem_range.mp hid).trans prepared.nodeCount.toNat_lt)⟩)
    List.length_replicate hkind hprepared
  exact hnodes.bind fun after _ hafter ↦
    ensures_foldlM (fun p _ state hstate ↦ hpump state p hstate)
      (hfirst after.1 after.2 hafter.1 hafter.2)

end Start

/-! ### Loops -/

/-- What holds of the first state of the loop, and what every turn ensures from the states that the
loop reaches. -/
structure LoopRule (codec : Option (ClientCodec N)) (ops : List FrozenOp) (started : RunState N)
    (P : RunState N → Prop) (Q : Halt → Prop) : Prop where
  starts : P started
  skip : ∀ (state : RunState N) (event : Scheduled N) queue, P state →
    state.core.queue.pop = some (event, queue) → event.fireAt < state.core.horizon →
      P { state with core := { state.core with queue := queue, now := event.fireAt } }
  fire : ∀ state event popped core, Reaches codec ops started state → P state →
    Fires state event popped core →
      Ensures P Q (handle codec ops { state with core := core } popped)

section Loops

variable {P : RunState N → Prop} {Q : Halt → Prop} {started : RunState N}

/-- The invariant rule of the states that the loop reaches. -/
theorem LoopRule.reaches (h : LoopRule codec ops started P Q) {state : RunState N}
    (hreach : Reaches codec ops started state) : P state := by
  induction hreach with
  | refl => exact h.starts
  | tail hreach hturn ih =>
    obtain ⟨event, hturn⟩ := hturn
    cases hturn with
    | skip hpop hbelow hresolve =>
      obtain rfl := resolve_eq_none hresolve
      exact h.skip _ event _ ih hpop hbelow
    | fire hpop hbelow hresolve hhandle =>
      have hnext := h.fire _ event _ _ hreach ih (.intro hpop hbelow hresolve)
      rw [hhandle] at hnext
      exact hnext

/-- What a call of `pop` hands to the driver is fired in a state that the loop reaches. -/
theorem exists_fires {bound : ℕ} {state : RunState N} {popped : PoppedEvent N}
    {core : SchedCore N} (hreach : Reaches codec ops started state)
    (h : state.core.popLoop bound = (some popped, core)) :
    ∃ state' event, Reaches codec ops started state' ∧ Fires state' event popped core ∧
      { state' with core := core } = { state with core := core } := by
  induction bound generalizing state with
  | zero => simp [SchedCore.popLoop] at h
  | succ bound ih =>
    cases hpop : state.core.queue.pop with
    | none => simp [SchedCore.popLoop, hpop] at h
    | some taken =>
      obtain ⟨event, queue⟩ := taken
      rw [SchedCore.popLoop_succ hpop] at h
      split_ifs at h with hpast
      · simp at h
      have hbelow := not_le.mp hpast
      cases hresolve : SchedCore.resolve { state.core with queue := queue } event with
      | mk resolved core' =>
        rw [hresolve] at h
        cases resolved with
        | some fired =>
          obtain ⟨heq, rfl⟩ := Prod.mk.inj h
          obtain rfl := Option.some.inj heq
          exact ⟨state, event, hreach, .intro hpop hbelow hresolve, rfl⟩
        | none =>
          have hturn : Turn codec ops state event { state with core := core' } :=
            .skip hpop hbelow hresolve
          exact @ih { state with core := core' } (hreach.tail ⟨event, hturn⟩) h

/-- The invariant rule of the main loop. -/
theorem LoopRule.mainLoop (h : LoopRule codec ops started P Q) (hfuel : Q .outOfFuel) (fuel : ℕ) :
    Ensures (fun _ ↦ True) Q (mainLoop codec ops fuel started) := by
  suffices hall : ∀ state, Reaches codec ops started state →
      Ensures (fun _ ↦ True) Q (Simulator.mainLoop codec ops fuel state) from hall started .refl
  induction fuel with
  | zero => exact fun _ _ ↦ hfuel
  | succ fuel ih =>
    intro state hreach
    rw [Simulator.mainLoop]
    cases hpop : state.core.pop with
    | mk popped core =>
      cases popped with
      | none => trivial
      | some popped =>
        obtain ⟨state', event, hreach', hfires, heq⟩ := exists_fires hreach hpop
        have hturn := h.fire state' event popped core hreach' (h.reaches hreach') hfires
        rw [heq] at hturn
        cases hhandle : handle codec ops { state with core := core } popped with
        | error halt =>
          simp only
          rw [hhandle]
          exact hturn.of_error hhandle
        | ok next =>
          simp only
          rw [hhandle]
          exact ih next (hreach'.tail ⟨event, hfires.turn (heq ▸ hhandle)⟩)

end Loops

/-- The loop halts exactly when it reaches a state in which an event halts. Assumes: a halt that is
no want of fuel. -/
theorem mainLoop_eq_error_iff {started : RunState N} {halt : Halt} (hfuel : halt ≠ .outOfFuel) :
    (∃ fuel, mainLoop codec ops fuel started = .error halt) ↔
      ∃ state event popped core, Reaches codec ops started state ∧ Fires state event popped core ∧
        handle codec ops { state with core := core } popped = .error halt := by
  constructor
  · rintro ⟨fuel, hloop⟩
    by_contra hnone
    have hrule : LoopRule codec ops started (fun _ ↦ True) (· ≠ halt) :=
      ⟨trivial, fun _ _ _ _ _ _ ↦ trivial, fun state event popped core hreach _ hfires ↦
        ensures_of_eq (fun _ _ ↦ trivial) fun halt' hhandle heq ↦
          hnone ⟨state, event, popped, core, hreach, hfires, heq ▸ hhandle⟩⟩
    exact (hrule.mainLoop hfuel.symm fuel).of_error hloop rfl
  · rintro ⟨state, event, popped, core, hreach, ⟨hpop, hbelow, hresolve⟩, hhandle⟩
    have hhere : ∃ fuel, mainLoop codec ops fuel state = .error halt :=
      ⟨1, by simp only [mainLoop, pop_of_fire hpop hbelow hresolve, hhandle]⟩
    -- Back along the turns that lead to the state.
    induction hreach using Relation.ReflTransGen.head_induction_on with
    | refl => exact hhere
    | head hturn _ ih =>
      obtain ⟨event', hturn⟩ := hturn
      obtain ⟨fuel, hloop⟩ := ih
      obtain ⟨fuel', heq⟩ := mainLoop_of_turn hturn fuel
      exact ⟨fuel', heq.trans hloop⟩

/-- A run halts exactly when its preparation, its start or an event in a state that it reaches
halts. Assumes: a halt that is no want of fuel. -/
theorem runDeterministic_eq_error_iff {data : PlanData} {workload : Option Strategy} {seed : Seed}
    {halt : Halt} (hfuel : halt ≠ .outOfFuel) :
    (∃ fuel nodeDef, runDeterministic fuel data nodeDef workload codec seed = .error halt) ↔
      prepareCore N data seed = .error halt ∨ ∃ prepared, prepareCore N data seed = .ok prepared ∧
        (startRun codec (resolveOps data workload seed) prepared = .error halt ∨
          ∃ started, startRun codec (resolveOps data workload seed) prepared = .ok started ∧
            ∃ state event popped core, Reaches codec (resolveOps data workload seed) started state ∧
              Fires state event popped core ∧
              handle codec (resolveOps data workload seed) { state with core := core } popped =
                .error halt) := by
  have hstages (fuel : ℕ) (prepared : SchedCore N) :
      (do
        let state ← startRun codec (resolveOps data workload seed) prepared
        let state ← mainLoop codec (resolveOps data workload seed) fuel state
        pure (Except.ok (finishRun seed state) : Except RunFailure (TypedRun N))) = .error halt ↔
      startRun codec (resolveOps data workload seed) prepared = .error halt ∨
        ∃ started, startRun codec (resolveOps data workload seed) prepared = .ok started ∧
          mainLoop codec (resolveOps data workload seed) fuel started = .error halt := by
    rw [except_bind_eq_error]
    refine or_congr_right (exists_congr fun started ↦ and_congr_right fun _ ↦ ?_)
    rw [except_bind_eq_error]
    exact or_iff_left fun ⟨_, _, hpure⟩ ↦ except_pure_ne_error hpure
  constructor
  · rintro ⟨fuel, nodeDef, herror⟩
    have hnode : nodeDef ≠ some .spawnEach := by
      rintro rfl
      cases herror
    rw [runDeterministic_eq hnode, except_bind_eq_error] at herror
    refine herror.imp_right fun ⟨prepared, hprepare, hrest⟩ ↦ ⟨prepared, hprepare, ?_⟩
    refine ((hstages fuel prepared).mp hrest).imp_right fun ⟨started, hstart, hloop⟩ ↦ ?_
    exact ⟨started, hstart, (mainLoop_eq_error_iff hfuel).mp ⟨fuel, hloop⟩⟩
  · intro hhalts
    have hnode : (none : Option NodeDef) ≠ some .spawnEach := by simp
    rcases hhalts with hprepare | ⟨prepared, hprepare, hstart | ⟨started, hstart, hloop⟩⟩
    · refine ⟨0, none, ?_⟩
      rw [runDeterministic_eq hnode, except_bind_eq_error]
      exact .inl hprepare
    · refine ⟨0, none, ?_⟩
      rw [runDeterministic_eq hnode, except_bind_eq_error]
      exact .inr ⟨prepared, hprepare, (hstages 0 prepared).mpr (.inl hstart)⟩
    · obtain ⟨fuel, hloop⟩ := (mainLoop_eq_error_iff hfuel).mpr hloop
      refine ⟨fuel, none, ?_⟩
      rw [runDeterministic_eq hnode, except_bind_eq_error]
      exact .inr ⟨prepared, hprepare, (hstages fuel prepared).mpr (.inr ⟨started, hstart, hloop⟩)⟩

end Propsim.Simulator
