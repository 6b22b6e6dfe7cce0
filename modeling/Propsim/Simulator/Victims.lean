import Propsim.Simulator.Reaching
import Propsim.Simulator.Rerun

/-!
# The operations that a crash closes

An open operation remembers the process that issued it and not the node that it was handed to, and a
crash closes the open operations of the process of the node's number. These are the operations that
the node was serving exactly when each open operation that the node's process issued, or that was
handed to the node, is both: at every crash on the way through a run, whether or not it comes to an
end (`Arrives.closesServed_iff`), and at all of them (`runDeterministic_closesServed_iff`).
-/

set_option autoImplicit false
set_option relaxedAutoImplicit false

namespace Propsim.Simulator

open Foundation Interchange Propsim.Core

variable {N : Node} {codec : Option (ClientCodec N)} {ops : List FrozenOp}

/-! ### Closing operations -/

/-- An entry is the indeterminate completion of an open operation at an instant. -/
def InfoOf (now : Duration) (pending : ℕ × PendingOp) (info : OpEntry) : Prop :=
  info.time = .virtualNanos (nowNanos now) ∧ info.kind = .info ∧
    info.process = pending.2.process ∧ info.f = pending.2.f

/-- What is closed between two cores: some open operations leave the table, and an indeterminate
completion of each is recorded. -/
def Closes (core core' : SchedCore N) (now : Duration) (closed : List (ℕ × PendingOp)) : Prop :=
  core'.pendingOps = core.pendingOps.filter (fun pending ↦ pending ∉ closed) ∧
    ∃ infos, core'.history.entries = core.history.entries ++ infos ∧
      List.Forall₂ (InfoOf now) closed infos

theorem Closes.mem_iff {core core' : SchedCore N} {now : Duration} {closed : List (ℕ × PendingOp)}
    (h : Closes core core' now closed) {pending : ℕ × PendingOp}
    (hopen : pending ∈ core.pendingOps) :
    pending ∈ closed ↔ pending ∉ core'.pendingOps := by
  rw [h.1, List.mem_filter, decide_eq_true_eq]
  tauto

/-- An operation of the table is pending under its token. -/
theorem pending_of_mem {core : SchedCore N} (htokens : (core.pendingOps.map (·.1)).Nodup)
    {token : ℕ} {op : PendingOp} (h : (token, op) ∈ core.pendingOps) :
    core.pending ⟨token⟩ = some op := by
  cases hpending : core.pending ⟨token⟩ with
  | none =>
    rw [SchedCore.pending, Option.map_eq_none_iff, List.find?_eq_none] at hpending
    simpa using hpending _ h
  | some op' =>
    have heq := List.inj_on_of_nodup_map htokens (mem_of_pending hpending) h rfl
    rw [(Prod.mk.inj heq).2]

/-- Closing open operations takes them out of the table and records a completion of each, in order.
The induction is on the operations. -/
theorem closes_closeAll {core : SchedCore N} {closed : List (ℕ × PendingOp)}
    (htokens : (core.pendingOps.map (·.1)).Nodup) (hclosed : (closed.map (·.1)).Nodup)
    (hopen : ∀ pending ∈ closed, pending ∈ core.pendingOps) :
    Closes core (core.closeAll (closed.map (·.1))) core.now closed := by
  induction closed generalizing core with
  | nil =>
    refine ⟨?_, [], (List.append_nil _).symm, .nil⟩
    simp [SchedCore.closeAll]
  | cons pending rest ih =>
    obtain ⟨token, op⟩ := pending
    rw [List.map_cons, List.nodup_cons] at hclosed
    rw [List.forall_mem_cons] at hopen
    have hpending := pending_of_mem htokens hopen.1
    have htable := pendingOps_closeOp hpending .info .nil
    have hsame (pending : ℕ × PendingOp) (hin : pending ∈ core.pendingOps) :
        pending.1 = token ↔ pending = (token, op) := by
      constructor
      · intro heq
        exact List.inj_on_of_nodup_map htokens hin hopen.1 heq
      · rintro rfl
        rfl
    have hrest (pending : ℕ × PendingOp) (hmem : pending ∈ rest) :
        pending ∈ (core.closeOp ⟨token⟩ .info .nil).pendingOps := by
      rw [htable, List.mem_filter]
      refine ⟨hopen.2 pending hmem, decide_eq_true fun heq ↦ hclosed.1 ?_⟩
      exact List.mem_map.mpr ⟨pending, hmem, heq⟩
    have htokens' : ((core.closeOp ⟨token⟩ .info .nil).pendingOps.map (·.1)).Nodup := by
      rw [htable]
      exact htokens.sublist (List.filter_sublist.map _)
    have hnow : (core.closeOp ⟨token⟩ .info .nil).now = core.now := by
      rw [SchedCore.closeOp, hpending]
      rfl
    obtain ⟨hfiltered, infos, hentries, hinfos⟩ := ih htokens' hclosed.2 hrest
    refine ⟨?_, ?_⟩
    · show ((core.closeOp ⟨token⟩ .info .nil).closeAll (rest.map (·.1))).pendingOps = _
      rw [hfiltered, htable, List.filter_filter]
      refine List.filter_congr fun pending hin ↦ ?_
      rw [← Bool.decide_and, decide_eq_decide, List.mem_cons, not_or, and_comm]
      exact and_congr_left' (not_congr (hsame pending hin))
    · show ∃ infos, ((core.closeOp ⟨token⟩ .info .nil).closeAll (rest.map (·.1))).history.entries =
        core.history.entries ++ infos ∧ _
      rw [hnow] at hinfos
      rw [hentries, SchedCore.closeOp, hpending]
      exact ⟨_ :: infos, List.append_assoc _ _ _, .cons ⟨rfl, rfl, rfl, rfl⟩ hinfos⟩

/-- The operations that a crash of a node closes: those of the process of its number. -/
def SchedCore.victims (core : SchedCore N) (n : NodeId) : List (ℕ × PendingOp) :=
  core.pendingOps.filter fun pending ↦ pending.2.process = ⟨n.id⟩

theorem mem_victims {core : SchedCore N} {n process : NodeId} {pending : ℕ × PendingOp}
    (hopen : pending ∈ core.pendingOps) (hprocess : pending.2.process = ⟨process.id⟩) :
    pending ∈ core.victims n ↔ process = n := by
  rw [SchedCore.victims, List.mem_filter, decide_eq_true_eq, hprocess]
  constructor
  · rintro ⟨-, heq⟩
    exact congrArg NodeId.mk (ProcessId.mk.inj heq)
  · rintro rfl
    exact ⟨hopen, rfl⟩

/-- The turn of a crash closes the operations of the process of the node's number. -/
theorem Turn.closes {state next : RunState N} {event : Scheduled N}
    (h : Turn codec ops state event next) (hrecorded : Recorded state.core) {n : NodeId}
    (hkind : event.kind = .fault (.crash n)) :
    Closes state.core next.core event.fireAt (state.core.victims n) := by
  have hsub : (state.core.victims n).Sublist state.core.pendingOps := List.filter_sublist
  have htokens := hrecorded.tokens.sublist (hsub.map _)
  cases h with
  | skip hpop hbelow hresolve =>
    cases resolves_of_resolve hresolve with
    | skipped _ hfault => exact absurd hkind (hfault _)
  | @fire queue core popped next hpop hbelow hresolve hhandle =>
    cases resolves_of_resolve hresolve with
    | deliver hkind' _ => cases hkind'.symm.trans hkind
    | timer hkind' _ _ => cases hkind'.symm.trans hkind
    | clientOp hkind' => cases hkind'.symm.trans hkind
    | @fault action hkind' =>
      cases hkind'.symm.trans hkind
      obtain ⟨core, nodes, hdispatch, -, hcore⟩ := handle_eq_ok hhandle
      obtain ⟨rfl, -⟩ := Prod.mk.inj (Except.ok.inj hdispatch)
      rw [hcore]
      dsimp only [SchedCore.applyFault]
      split_ifs
      · exact closes_closeAll hrecorded.tokens htokens hsub.subset
      · exact closes_closeAll hrecorded.tokens htokens hsub.subset

/-! ### Tokens -/

/-- No token is handed out, and no operation is opened. -/
structure TokensKept (core core' : SchedCore N) : Prop where
  next : core'.nextToken = core.nextToken
  pending : core'.pendingOps.Sublist core.pendingOps

theorem TokensKept.trans {a b c : SchedCore N} (h : TokensKept a b) (h' : TokensKept b c) :
    TokensKept a c := ⟨h'.next.trans h.next, h'.pending.trans h.pending⟩

theorem tokensKept_of_eq {core core' : SchedCore N} (hnext : core'.nextToken = core.nextToken)
    (hpending : core'.pendingOps = core.pendingOps) : TokensKept core core' :=
  ⟨hnext, hpending ▸ List.Sublist.refl _⟩

theorem tokensKept_closeOp (core : SchedCore N) (token : OpToken) (kind : OpKind) (value : Value) :
    TokensKept core (core.closeOp token kind value) := by
  unfold SchedCore.closeOp
  split
  · exact tokensKept_of_eq rfl rfl
  · exact ⟨rfl, List.filter_sublist⟩

theorem tokensKept_closeAll (core : SchedCore N) (tokens : List ℕ) :
    TokensKept core (core.closeAll tokens) := by
  induction tokens generalizing core with
  | nil => exact tokensKept_of_eq rfl rfl
  | cons token rest ih => exact (tokensKept_closeOp core ⟨token⟩ .info .nil).trans (ih _)

theorem CoreSteps.tokensKept {core core' : SchedCore N} (h : CoreSteps core core') :
    TokensKept core core' := by
  refine h.invariant (P := TokensKept core) (fun c c' hc hstep ↦ hc.trans ?_)
    (tokensKept_of_eq rfl rfl)
  cases hstep with
  | quiet => exact tokensKept_of_eq rfl rfl
  | enqueue => exact tokensKept_of_eq rfl rfl
  | close token value _ => exact tokensKept_closeOp c token _ value

theorem tokensKept_applyFault (core : SchedCore N) (action : FaultAction) :
    TokensKept core (core.applyFault action).2 := by
  cases action with
  | partition => exact tokensKept_of_eq rfl rfl
  | healAll => exact tokensKept_of_eq rfl rfl
  | restart => exact tokensKept_of_eq rfl rfl
  | crash n =>
    refine TokensKept.trans (tokensKept_of_eq ?_ ?_) (tokensKept_closeAll _ _)
    · split_ifs <;> rfl
    · split_ifs <;> rfl

theorem Resolves.tokensKept {core core' : SchedCore N} {event : Scheduled N}
    {popped : Option (PoppedEvent N)} (h : Resolves core event popped core') :
    TokensKept core core' := by
  cases h with
  | skipped => exact tokensKept_of_eq rfl rfl
  | deliver => exact tokensKept_of_eq rfl rfl
  | timer => exact tokensKept_of_eq rfl rfl
  | clientOp => exact tokensKept_of_eq rfl rfl
  | @fault action =>
    have hfault := tokensKept_applyFault { core with now := event.fireAt } action
    exact ⟨hfault.next, hfault.pending⟩

/-- A turn that takes a client operation opens it under the next token, and any other turn opens
none. -/
theorem Turn.tokensKept {state next : RunState N} {event : Scheduled N}
    (h : Turn codec ops state event next) :
    TokensKept state.core next.core ∧
        (∀ process index, event.kind ≠ .clientOp process index) ∨
      ∃ process index op f, event.kind = .clientOp process index ∧ ops[index]? = some op ∧
        TokensKept (state.core.openOp ⟨process.id⟩ f op.op).2 next.core := by
  cases h with
  | skip hpop hbelow hresolve =>
    have hresolves := resolves_of_resolve hresolve
    have hresolved := hresolves.tokensKept
    refine .inl ⟨⟨hresolved.next, hresolved.pending⟩, fun process index hkind ↦ ?_⟩
    cases (hresolves.clientOp_iff process index).mp hkind
  | @fire queue core popped next hpop hbelow hresolve hhandle =>
    have hresolves := resolves_of_resolve hresolve
    have hresolved : TokensKept state.core core :=
      ⟨hresolves.tokensKept.next, hresolves.tokensKept.pending⟩
    obtain ⟨core', nodes, hdispatch, -, hcore⟩ := handle_eq_ok hhandle
    have hpumped : TokensKept core' next.core := by
      rw [hcore]
      exact tokensKept_of_eq rfl rfl
    rcases dispatch_steps hdispatch with
      ⟨hsteps, hclient⟩ | ⟨process, index, op, f, rfl, hop, hsteps⟩
    · refine .inl ⟨(hresolved.trans hsteps.tokensKept).trans hpumped,
        fun process index hkind ↦ ?_⟩
      exact hclient process index
        (Option.some.inj ((hresolves.clientOp_iff process index).mp hkind))
    · have hkind := (hresolves.clientOp_iff process index).mpr rfl
      refine .inr ⟨process, index, op, f, hkind, hop, ?_⟩
      refine TokensKept.trans ⟨?_, ?_⟩ (hsteps.tokensKept.trans hpumped)
      · exact congrArg Nat.succ hresolved.next
      · rw [pendingOps_openOp, pendingOps_openOp, hresolved.next]
        exact hresolved.pending.append (List.Sublist.refl _)

/-! ### The node of an open operation -/

/-- At a moment of a log, a token was given to an operation of a process that is handed to a node of
a cluster, by its route or by default. -/
def HandedIn (ops : List FrozenOp) (count : ℕ) (log : List (Moment N)) (token : ℕ)
    (process : NodeId) (node : ℕ) : Prop :=
  ∃ m ∈ log, ∃ event index op, m.act = .take event ∧ event.kind = .clientOp process index ∧
    ops[index]? = some op ∧ m.core.nextToken = token ∧ target op process count = node

/-- No operation is handed to a node while the nodes start. -/
theorem not_handedIn_startMoments {count token : ℕ} {process : NodeId} {node : ℕ} {ids : List ℕ}
    (state : SchedCore N × List (Option N.State)) :
    ¬ HandedIn ops count (startMoments codec ids state) token process node := by
  rintro ⟨m, hm, event, index, op, hact, -⟩
  have htaken := (within_of_mem_startMoments hm).taken
  rw [Moment.taken_eq_some.mpr hact] at htaken
  cases htaken

/-- The operation of a turn is handed to a node, after those before it. -/
theorem Turn.handedIn_iff {state next : RunState N} {event : Scheduled N}
    (h : Turn codec ops state event next) (log : List (Moment N)) {count token : ℕ}
    {process : NodeId} {node : ℕ} :
    HandedIn ops count (log ++ turnMoments codec ops state) token process node ↔
      HandedIn ops count log token process node ∨ ∃ index op,
        event.kind = .clientOp process index ∧ ops[index]? = some op ∧
          state.core.nextToken = token ∧ target op process count = node := by
  constructor
  · rintro ⟨m, hm, other, index, op, hact, hhanded⟩
    rcases List.mem_append.mp hm with hm | hm
    · exact .inl ⟨m, hm, other, index, op, hact, hhanded⟩
    rcases h.mem_moments hm with rfl | ⟨hnone, -⟩
    · obtain rfl := Act.take.inj hact
      exact .inr ⟨index, op, hhanded⟩
    · rw [Moment.taken_eq_some.mpr hact] at hnone
      cases hnone
  · rintro (⟨m, hm, hhanded⟩ | ⟨index, op, hhanded⟩)
    · exact ⟨m, List.mem_append_left _ hm, hhanded⟩
    · refine ⟨⟨state.core, .take event⟩, List.mem_append_right _ ?_, event, index, op, rfl,
        hhanded⟩
      obtain ⟨queue, hpop, -⟩ := h.pop_eq
      rw [turnMoments, hpop]
      exact List.mem_cons_self

/-- The tokens of a log were given once and before the next one, and every open operation was handed
to a node. -/
structure Handed (ops : List FrozenOp) (count : ℕ) (log : List (Moment N)) (core : SchedCore N) :
    Prop where
  below : ∀ token process node, HandedIn ops count log token process node → token < core.nextToken
  unique : ∀ token process node process' node', HandedIn ops count log token process node →
    HandedIn ops count log token process' node' → process' = process ∧ node' = node
  opened : ∀ pending ∈ core.pendingOps, ∃ process node,
    HandedIn ops count log pending.1 process node ∧ pending.2.process = ⟨process.id⟩

theorem Handed.turn {count : ℕ} {log : List (Moment N)} {state next : RunState N}
    {event : Scheduled N} (h : Handed ops count log state.core)
    (hturn : Turn codec ops state event next) :
    Handed ops count (log ++ turnMoments codec ops state) next.core := by
  have hle : state.core.nextToken ≤ next.core.nextToken := by
    rcases hturn.tokensKept with ⟨hkept, -⟩ | ⟨_, _, _, _, -, -, hkept⟩
    · exact hkept.next.ge
    · exact (Nat.le_succ _).trans hkept.next.ge
  refine ⟨fun token process node hhanded ↦ ?_,
    fun token process node process' node' hhanded hhanded' ↦ ?_, fun pending hopen ↦ ?_⟩
  · rcases (hturn.handedIn_iff log).mp hhanded with hold | ⟨index, op, hkind, -, rfl, -⟩
    · exact (h.below token process node hold).trans_le hle
    rcases hturn.tokensKept with ⟨-, hclient⟩ | ⟨_, _, _, _, -, -, hkept⟩
    · exact absurd hkind (hclient process index)
    · exact (Nat.lt_succ_self _).trans_le hkept.next.ge
  · rcases (hturn.handedIn_iff log).mp hhanded with hold | ⟨index, op, hkind, hop, rfl, rfl⟩
    · rcases (hturn.handedIn_iff log).mp hhanded' with hold' | ⟨_, _, -, -, rfl, -⟩
      · exact h.unique token process node process' node' hold hold'
      · exact absurd (h.below _ process node hold) (lt_irrefl _)
    · rcases (hturn.handedIn_iff log).mp hhanded' with hold' | ⟨index', op', hkind', hop', -, rfl⟩
      · exact absurd (h.below _ process' node' hold') (lt_irrefl _)
      · obtain ⟨rfl, rfl⟩ := EventKind.clientOp.inj (hkind.symm.trans hkind')
        obtain rfl := Option.some.inj (hop.symm.trans hop')
        exact ⟨rfl, rfl⟩
  · have hlift {process : NodeId} {node : ℕ}
        (hold : HandedIn ops count log pending.1 process node) :
        HandedIn ops count (log ++ turnMoments codec ops state) pending.1 process node :=
      (hturn.handedIn_iff log).mpr (.inl hold)
    rcases hturn.tokensKept with ⟨hkept, -⟩ | ⟨process, index, op, f, hkind, hop, hkept⟩
    · obtain ⟨process, node, hold, hprocess⟩ := h.opened pending (hkept.pending.subset hopen)
      exact ⟨process, node, hlift hold, hprocess⟩
    · rcases List.mem_append.mp (hkept.pending.subset hopen) with hopen | hnew
      · obtain ⟨process, node, hold, hprocess⟩ := h.opened pending hopen
        exact ⟨process, node, hlift hold, hprocess⟩
      · rw [List.mem_singleton.mp hnew]
        exact ⟨process, _, (hturn.handedIn_iff log).mpr
          (.inr ⟨index, op, hkind, hop, rfl, rfl⟩), rfl⟩

/-- The crash of a node closes exactly the open operations that were handed to it when each open
operation that the process of its number issued or that was handed to it was handed to the node of
its own process, and only then. Assumes: every open operation was handed to one node. -/
theorem Turn.closesServed_iff {state next : RunState N} {event : Scheduled N}
    (h : Turn codec ops state event next) (hrecorded : Recorded state.core) {n : NodeId}
    (hkind : event.kind = .fault (.crash n)) {handed : ℕ → NodeId → ℕ → Prop}
    (hunique : ∀ token process node process' node', handed token process node →
      handed token process' node' → process' = process ∧ node' = node)
    (hopened : ∀ pending ∈ state.core.pendingOps, ∃ process node,
      handed pending.1 process node ∧ pending.2.process = ⟨process.id⟩) :
    (∃ closed, Closes state.core next.core event.fireAt closed ∧
        closed.Sublist state.core.pendingOps ∧ ∀ pending ∈ state.core.pendingOps,
          pending ∈ closed ↔ ∃ process, handed pending.1 process n.id.toNat) ↔
      ∀ pending ∈ state.core.pendingOps, ∀ process node, handed pending.1 process node →
        process = n ∨ node = n.id.toNat → node = process.id.toNat := by
  have hvictims := h.closes hrecorded hkind
  constructor
  · rintro ⟨closed, hclosed, -, hserved⟩ pending hopen process node hhanded hconcerned
    have hsame : pending ∈ state.core.victims n ↔ ∃ process, handed pending.1 process n.id.toNat :=
      (hvictims.mem_iff hopen).trans ((hclosed.mem_iff hopen).symm.trans (hserved pending hopen))
    obtain ⟨process', node', hhanded', hprocess⟩ := hopened pending hopen
    obtain ⟨rfl, rfl⟩ := hunique _ _ _ _ _ hhanded hhanded'
    rw [mem_victims hopen hprocess] at hsame
    rcases hconcerned with rfl | rfl
    · obtain ⟨process, hhome⟩ := hsame.mp rfl
      exact (hunique _ _ _ _ _ hhanded hhome).2.symm
    · rw [hsame.mpr ⟨_, hhanded⟩]
  · intro hserves
    refine ⟨state.core.victims n, hvictims, List.filter_sublist, fun pending hopen ↦ ?_⟩
    obtain ⟨process, node, hhanded, hprocess⟩ := hopened pending hopen
    have hown := hserves pending hopen process node hhanded
    rw [mem_victims hopen hprocess]
    constructor
    · rintro rfl
      exact ⟨process, hown (.inl rfl) ▸ hhanded⟩
    · rintro ⟨process', hserved⟩
      obtain ⟨rfl, hnode⟩ := hunique _ _ _ _ _ hhanded hserved
      have hhome := hown (.inr hnode.symm)
      exact NodeId.eq_of_toNat_eq (hhome.symm.trans hnode.symm)

section Arrivals

variable {data : PlanData} {seed : Seed} {prepared : SchedCore N} {started state : RunState N}
  {log : List (Moment N)}

theorem pendingOps_started (hprepare : prepareCore N data seed = .ok prepared)
    (hstart : startRun codec ops prepared = .ok started) : started.core.pendingOps = [] := by
  have hprepared : prepared.pendingOps = [] :=
    prepared_core (P := fun core ↦ core.pendingOps = []) (fun _ _ _ h ↦ h) (fun _ _ h ↦ h)
      hprepare fun _ _ ↦ rfl
  obtain ⟨core, nodes, hnodes, hpump⟩ := startRun_eq_ok.mp hstart
  have hstarted := (startNodes_steps hnodes).tokensKept.pending
  rw [hprepared, List.sublist_nil] at hstarted
  rw [(pumpClientOps_frame hpump).2]
  exact hstarted

/-- Every open operation was handed to one node, by induction on the turns. -/
theorem Arrives.handed (h : Arrives codec ops prepared started log state)
    (hprepare : prepareCore N data seed = .ok prepared)
    (hstart : startRun codec ops prepared = .ok started) (count : ℕ) :
    Handed ops count log state.core := by
  induction h with
  | start =>
    refine ⟨fun _ _ _ hhanded ↦ absurd hhanded (not_handedIn_startMoments _),
      fun _ _ _ _ _ hhanded ↦ absurd hhanded (not_handedIn_startMoments _), fun pending hopen ↦ ?_⟩
    rw [pendingOps_started hprepare hstart] at hopen
    cases hopen
  | turn _ hturn ih => exact ih.turn hturn

/-- On every way through a run, whether or not it comes to an end, the next turn closes what a node
that it crashes was serving exactly when every operation concerned was handed to the node of its own
process. -/
theorem Arrives.closesServed_iff (h : Arrives codec ops prepared started log state)
    (hprepare : prepareCore N data seed = .ok prepared)
    (hstart : startRun codec ops prepared = .ok started) {next : RunState N} {event : Scheduled N}
    (hturn : Turn codec ops state event next) {n : NodeId}
    (hkind : event.kind = .fault (.crash n)) :
    (∃ closed, Closes state.core next.core event.fireAt closed ∧
        closed.Sublist state.core.pendingOps ∧ ∀ pending ∈ state.core.pendingOps,
          pending ∈ closed ↔
            ∃ process, HandedIn ops prepared.nodeCount.toNat log pending.1 process n.id.toNat) ↔
      ∀ pending ∈ state.core.pendingOps, ∀ process node,
        HandedIn ops prepared.nodeCount.toNat log pending.1 process node →
          process = n ∨ node = n.id.toNat → node = process.id.toNat := by
  have hhanded := h.handed hprepare hstart prepared.nodeCount.toNat
  exact hturn.closesServed_iff (h.recorded hprepare hstart) hkind hhanded.unique hhanded.opened

end Arrivals

section Executions

variable {data : PlanData} {workload : Option Strategy} {seed : Seed}

namespace Execution

variable (e : Execution N data workload codec seed)

/-- A token was given to an operation of a process that is handed to a node, by its route or by
default. -/
def HandedTo (token : ℕ) (process : NodeId) (node : ℕ) : Prop :=
  ∃ (j : ℕ) (state : RunState N) (event : Scheduled N) (index : ℕ) (op : FrozenOp),
    e.states[j]? = some state ∧ e.taken[j]? = some event ∧ event.kind = .clientOp process index ∧
      (resolveOps data workload seed)[index]? = some op ∧ state.core.nextToken = token ∧
        target op process state.nodes.length = node

/-- The turn at a position gave a token to an operation of a process that it handed to a node. -/
def HandedAt (j token : ℕ) (process : NodeId) (node : ℕ) : Prop :=
  ∃ (state : RunState N) (event : Scheduled N) (index : ℕ) (op : FrozenOp),
    e.states[j]? = some state ∧ e.taken[j]? = some event ∧ event.kind = .clientOp process index ∧
      (resolveOps data workload seed)[index]? = some op ∧ state.core.nextToken = token ∧
        target op process state.nodes.length = node

theorem handedTo_iff {token : ℕ} {process : NodeId} {node : ℕ} :
    e.HandedTo token process node ↔ ∃ j, e.HandedAt j token process node := Iff.rfl

/-- The table of nodes keeps its length. -/
theorem length_nodes : ∀ state ∈ e.states, state.nodes.length = e.prepared.nodeCount.toNat := by
  refine e.loop.invariant (P := fun s ↦ s.nodes.length = e.prepared.nodeCount.toNat)
    (fun s event next hs hturn ↦ hturn.length_nodes.trans hs) ?_
  obtain ⟨core, nodes, hnodes, hpump⟩ := startRun_eq_ok.mp e.start_eq
  rw [(pumpClientOps_frame hpump).1]
  exact length_startNodes hnodes

/-- On the way to a state of an execution, the operations of the turns before it were handed to
nodes. -/
theorem exists_handed (j : ℕ) : ∀ state, e.states[j]? = some state →
    ∃ log, Arrives codec (resolveOps data workload seed) e.prepared e.started log state ∧
      ∀ token process node,
        HandedIn (resolveOps data workload seed) e.prepared.nodeCount.toNat log token process node ↔
          ∃ i < j, e.HandedAt i token process node := by
  induction j with
  | zero =>
    intro state hstate
    obtain rfl : e.started = state := Option.some.inj hstate
    exact ⟨_, .start, fun token process node ↦ iff_of_false (not_handedIn_startMoments _) (by simp)⟩
  | succ j ih =>
    intro next hnext
    obtain ⟨state, event, hstate, htaken, hturn⟩ := e.exists_turn_to hnext
    obtain ⟨log, harrives, hhanded⟩ := ih state hstate
    refine ⟨_, harrives.turn hturn, fun token process node ↦ ?_⟩
    have hlast : e.HandedAt j token process node ↔ ∃ index op,
        event.kind = .clientOp process index ∧
          (resolveOps data workload seed)[index]? = some op ∧ state.core.nextToken = token ∧
            target op process e.prepared.nodeCount.toNat = node := by
      rw [HandedAt, hstate, htaken, ← e.length_nodes state (List.mem_of_getElem? hstate)]
      simp only [Option.some.injEq, exists_and_left, exists_eq_left']
    rw [hturn.handedIn_iff, hhanded, ← hlast]
    simp only [Nat.lt_succ_iff_lt_or_eq, or_and_right, exists_or, exists_eq_left]

/-- A token is given once. -/
theorem handedTo_unique {token : ℕ} {process : NodeId} {node : ℕ} {process' : NodeId} {node' : ℕ}
    (h : e.HandedTo token process node) (h' : e.HandedTo token process' node') :
    process' = process ∧ node' = node := by
  obtain ⟨log, harrives, hhanded⟩ := e.exists_handed _ _ e.states_last
  have hwithin {process : NodeId} {node : ℕ} (h : e.HandedTo token process node) :
      HandedIn (resolveOps data workload seed) e.prepared.nodeCount.toNat log token process
        node := by
    obtain ⟨j, hat⟩ := e.handedTo_iff.mp h
    refine (hhanded token process node).mpr ⟨j, ?_, hat⟩
    obtain ⟨-, event, -, -, -, htaken, -⟩ := hat
    simpa [taken] using (List.getElem?_eq_some_iff.mp htaken).1
  exact (harrives.handed e.prepare_eq e.start_eq _).unique _ _ _ _ _ (hwithin h) (hwithin h')

/-- Every open operation was handed to a node. -/
theorem exists_handedTo {j : ℕ} {state : RunState N} (hstate : e.states[j]? = some state)
    {pending : ℕ × PendingOp} (hopen : pending ∈ state.core.pendingOps) :
    ∃ process node, e.HandedTo pending.1 process node ∧ pending.2.process = ⟨process.id⟩ := by
  obtain ⟨log, harrives, hhanded⟩ := e.exists_handed j state hstate
  obtain ⟨process, node, hin, hprocess⟩ :=
    (harrives.handed e.prepare_eq e.start_eq e.prepared.nodeCount.toNat).opened pending hopen
  obtain ⟨i, -, hat⟩ := (hhanded _ process node).mp hin
  exact ⟨process, node, e.handedTo_iff.mpr ⟨i, hat⟩, hprocess⟩

/-- Every crash of a node closes exactly the open operations that were handed to it. -/
def ClosesServed : Prop :=
  ∀ (j : ℕ) (state : RunState N) (event : Scheduled N) (next : RunState N),
    e.states[j]? = some state → e.steps[j]? = some (event, next) →
      ∀ n, event.kind = .fault (.crash n) →
        ∃ closed, Closes state.core next.core event.fireAt closed ∧
          closed.Sublist state.core.pendingOps ∧ ∀ pending ∈ state.core.pendingOps,
            pending ∈ closed ↔ ∃ process, e.HandedTo pending.1 process n.id.toNat

/-- When a node crashes, each open operation that the process of its number issued or that was
handed to it was handed to the node of its own process. -/
def ServesOwn : Prop :=
  ∀ (j : ℕ) (state : RunState N) (event : Scheduled N), e.states[j]? = some state →
    e.taken[j]? = some event → ∀ n, event.kind = .fault (.crash n) →
      ∀ pending ∈ state.core.pendingOps, ∀ process node, e.HandedTo pending.1 process node →
        process = n ∨ node = n.id.toNat → node = process.id.toNat

/-- Crashes close what the crashed nodes were serving exactly when every operation concerned was
handed to the node of its own process. -/
theorem closesServed_iff : e.ClosesServed ↔ e.ServesOwn := by
  have hunique (token : ℕ) (process : NodeId) (node : ℕ) (process' : NodeId) (node' : ℕ) :
      e.HandedTo token process node → e.HandedTo token process' node' →
        process' = process ∧ node' = node := e.handedTo_unique
  have hturn {j : ℕ} {state next : RunState N} {event : Scheduled N} {n : NodeId}
      (hstate : e.states[j]? = some state) (hstep : e.steps[j]? = some (event, next))
      (hkind : event.kind = .fault (.crash n)) :=
    (e.turn_at hstate hstep).closesServed_iff (e.recorded state (List.mem_of_getElem? hstate))
      hkind hunique fun _ ↦ e.exists_handedTo hstate
  constructor
  · intro hcloses j state event hstate htaken n hkind
    obtain ⟨⟨event', next⟩, hstep, rfl⟩ : ∃ step, e.steps[j]? = some step ∧ step.1 = event := by
      simpa [taken] using htaken
    exact (hturn hstate hstep hkind).mp (hcloses j state event' next hstate hstep n hkind)
  · intro hserves j state event next hstate hstep n hkind
    have htaken : e.taken[j]? = some event := by simp [taken, hstep]
    exact (hturn hstate hstep hkind).mpr (hserves j state event hstate htaken n hkind)

/-- When every operation is handed to the node of its own process, crashes close what the crashed
nodes were serving. -/
theorem servesOwn_of_routedHome (h : ∀ event ∈ e.taken,
    RoutedHome (resolveOps data workload seed) e.prepared.nodeCount.toNat event) :
    e.ServesOwn := by
  intro j state event _ _ n _ pending _ process node hhanded _
  obtain ⟨i, before, issue, index, op, hbefore, htaken, hkind, hop, -, rfl⟩ := hhanded
  have hissue := List.mem_of_getElem? htaken
  rw [e.length_nodes before (List.mem_of_getElem? hbefore),
    h issue hissue process index op hkind hop]
  exact Nat.mod_eq_of_lt (e.clients issue hissue process index hkind).1

end Execution

/-- In every run whose loop ends, crashes close exactly what the crashed nodes were serving if and
only if every operation concerned was handed to the node of its own process, as it is when no
operation of the stream has a route. -/
theorem runDeterministic_closesServed_iff {fuel : ℕ} {nodeDef : Option NodeDef} {run : TypedRun N}
    (h : runDeterministic fuel data nodeDef workload codec seed = .ok (.ok run)) :
    ∃ e : Execution N data workload codec seed, e.result = run ∧
      (e.ClosesServed ↔ e.ServesOwn) ∧
      ((∀ op ∈ resolveOps data workload seed, op.route = none) → e.ClosesServed) := by
  obtain ⟨e, he⟩ := exists_execution h
  refine ⟨e, he, e.closesServed_iff, fun hroutes ↦ e.closesServed_iff.mpr ?_⟩
  exact e.servesOwn_of_routedHome fun event _ ↦ routedHome_of_route_eq_none hroutes _ event

end Executions

/-! ### A crash of the wrong operations -/

/-- A node that leaves every client operation pending. -/
def parker : Node where
  State := Unit
  Msg := Unit
  Timer := Unit
  Op := Unit
  Response := Unit
  default := ()
  debug _ := "()"
  onStart _ := .done ()
  onMsg _ _ _ := .done ()
  onTimer _ _ := .done ()
  onClientOp _ _ _ := .done ((), .pending)

/-- The codec of the parking node accepts every operation. -/
def parkerCodec : ClientCodec parker where
  decode _ := some (⟨"park"⟩, ())
  encodeResponse _ _ := .nil

/-- The first process has its operation at the second node, which crashes. -/
def routedCrash : PlanData :=
  counterPlan 2 [⟨.fromMillis 2, .crash ⟨1⟩⟩] [⟨⟨0⟩, some ⟨1⟩, .nil⟩]

/-- A crash of the second node when each process has its operation at its own node. -/
def homeCrash : PlanData :=
  counterPlan 2 [⟨.fromMillis 2, .crash ⟨1⟩⟩] [.new ⟨0⟩ .nil, .new ⟨1⟩ .nil]

theorem parker_closesServed_iff :
    ∃ run, runDeterministic 8 homeCrash none none (some parkerCodec) ⟨0⟩ = .ok (.ok run) ∧
      ∃ e : Execution parker homeCrash none (some parkerCodec) ⟨0⟩, e.result = run ∧
        (e.ClosesServed ↔ e.ServesOwn) ∧ e.ClosesServed := by
  obtain ⟨run, hrun⟩ := exists_run_of_isSome (N := parker)
    (x := runDeterministic 8 homeCrash none none (some parkerCodec) ⟨0⟩) (by decide +kernel)
  obtain ⟨e, he, hiff, hhome⟩ := runDeterministic_closesServed_iff hrun
  refine ⟨run, hrun, e, he, hiff, hhome fun op hop ↦ ?_⟩
  have hops : resolveOps homeCrash none ⟨0⟩ = [.new ⟨0⟩ .nil, .new ⟨1⟩ .nil] := rfl
  rw [hops] at hop
  simp only [List.mem_cons, List.not_mem_nil, or_false] at hop
  rcases hop with rfl | rfl <;> rfl

/-- The crash of the second node leaves open the operation that it was handed. -/
theorem routedCrash_not_closesServed :
    ∃ run, runDeterministic 8 routedCrash none none (some parkerCodec) ⟨0⟩ = .ok (.ok run) ∧
      ∃ e : Execution parker routedCrash none (some parkerCodec) ⟨0⟩, e.result = run ∧
        ¬ e.ClosesServed := by
  obtain ⟨run, hrun⟩ := exists_run_of_isSome (N := parker)
    (x := runDeterministic 8 routedCrash none none (some parkerCodec) ⟨0⟩) (by decide +kernel)
  obtain ⟨e, he⟩ := exists_execution hrun
  refine ⟨run, hrun, e, he, fun hcloses ↦ ?_⟩
  have hstarted : e.started.core.nextToken = 0 ∧ e.started.nodes.length = 2 :=
    Prod.mk.inj (e.of_compute (f := fun e ↦ (e.started.core.nextToken, e.started.nodes.length)) 8
      (by decide +kernel))
  have hsteps := e.of_compute (f := fun e ↦ e.steps.map fun step ↦
    (step.1.kind.opIndex, faultOf step.1, step.2.core.pendingOps)) 8
    (a := [(some 0, none, [(0, ⟨⟨0⟩, ⟨"park"⟩⟩)]),
      (none, some (.crash ⟨1⟩), [(0, ⟨⟨0⟩, ⟨"park"⟩⟩)])]) (by decide +kernel)
  obtain ⟨⟨issue, opened⟩, rest, hcons, hissue, hrest⟩ := List.map_eq_cons_iff.mp hsteps
  obtain ⟨⟨crash, crashed⟩, rest, rfl, hcrash, -⟩ := List.map_eq_cons_iff.mp hrest
  simp only [Prod.mk.injEq] at hissue hcrash
  obtain ⟨process, hissued⟩ := exists_kind_of_opIndex hissue.1
  have hhanded : e.HandedTo 0 process 1 :=
    ⟨0, e.started, issue, 0, ⟨⟨0⟩, some ⟨1⟩, .nil⟩, rfl, by simp [Execution.taken, hcons], hissued,
      rfl, hstarted.1, by rw [hstarted.2]; rfl⟩
  obtain ⟨closed, hclosed, -, hserved⟩ := hcloses 1 opened crash crashed
    (by simp [Execution.states, hcons]) (by simp [hcons]) ⟨1⟩ (faultOf_eq_some_iff.mp hcrash.2.1)
  -- The operation was handed to the second node, and it is open after the crash.
  have hopen : (0, ⟨⟨0⟩, ⟨"park"⟩⟩) ∈ opened.core.pendingOps := by
    rw [hissue.2.2]
    exact List.mem_singleton_self _
  have hmem := (hserved _ hopen).mpr ⟨process, hhanded⟩
  rw [hclosed.mem_iff hopen, hcrash.2.2] at hmem
  exact hmem (List.mem_singleton_self _)

end Propsim.Simulator
