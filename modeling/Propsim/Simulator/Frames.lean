import Mathlib.Data.List.Chain
import Propsim.Simulator.Deadlines
import Propsim.Simulator.Victims

/-!
# What the frames show

A frame is taken after every event that is dispatched, and between two frames at most one node
changes: the last frame of a state shows the nodes as they are (`Turn.shown`). So the properties of
a plan are evaluated on every state that the cluster passes through, and a predicate of the nodes is
always true, or sometimes, exactly when it is in all of these states, or in one of them
(`runDeterministic_shown`).
-/

set_option autoImplicit false
set_option relaxedAutoImplicit false

namespace Propsim.Simulator

open Foundation Interchange Propsim.Core

variable {N : Node} {codec : Option (ClientCodec N)} {ops : List FrozenOp}

/-- Two frames differ in the state of one node at most. -/
def DifferInOne {S : Type} (first second : Duration × List S) : Prop :=
  ∃ i : ℕ, ∀ j ≠ i, first.2[j]? = second.2[j]?

/-- The last frame of a state shows its nodes, and consecutive frames differ in one node at most. -/
structure Shown (state : RunState N) : Prop where
  last : ∃ frame, state.frames.getLast? = some frame ∧ state.nodes = frame.2.map some
  chain : state.frames.IsChain DifferInOne

/-- An always property is valid exactly when its predicate holds in every frame. -/
theorem evaluateOne_always_iff {S : Type} {prop : Property S} {trace : WorldTrace S}
    {events : List RunEvent} (hkind : prop.kind = .always) :
    evaluateOne prop trace events = .ok .valid ↔
      ∀ frame ∈ trace.frames, evalFrame prop trace frame = true := by
  simp only [evaluateOne, hkind]
  split
  · rename_i t nodes hfound
    refine iff_of_false (by simp [Verdict.invalid, Verdict.valid, Verdict.withWitness])
      fun hall ↦ ?_
    simpa [hall _ (List.mem_of_find?_eq_some hfound)] using List.find?_some hfound
  · rename_i hnone
    refine iff_of_true rfl fun frame hin ↦ ?_
    simpa using List.find?_eq_none.mp hnone frame hin

/-- A sometimes property is valid exactly when its predicate holds in some frame. -/
theorem evaluateOne_sometimes_iff {S : Type} {prop : Property S} {trace : WorldTrace S}
    {events : List RunEvent} (hkind : prop.kind = .sometimes) :
    evaluateOne prop trace events = .ok .valid ↔
      ∃ frame ∈ trace.frames, evalFrame prop trace frame = true := by
  simp only [evaluateOne, hkind]
  rw [← List.any_eq_true]
  split_ifs with hany
  · exact iff_of_true rfl hany
  · exact iff_of_false (by simp [Verdict.invalid, Verdict.valid]) hany

/-- Slots with a node in each of them. -/
theorem Occupied.nodes_eq {nodes : List (Option N.State)} (h : Occupied nodes) :
    nodes = (nodes.filterMap id).map some := by
  induction nodes with
  | nil => rfl
  | cons slot nodes ih =>
    obtain ⟨hslot, hnodes⟩ := List.forall_mem_cons.mp h
    obtain ⟨node, rfl⟩ := Option.isSome_iff_exists.mp hslot
    exact congrArg (some node :: ·) (ih hnodes)

/-- A turn takes a frame that shows the nodes after it, or leaves frames and nodes alone. -/
theorem Turn.shown {state next : RunState N} {event : Scheduled N}
    (h : Turn codec ops state event next) (hoccupied : Occupied state.nodes)
    (hstate : Shown state) : Shown next := by
  have hnext := h.occupied hoccupied
  cases h with
  | skip => exact ⟨hstate.last, hstate.chain⟩
  | fire hpop hbelow hresolve hhandle =>
    obtain ⟨core, nodes, pumped, hdispatch, hpump, rfl⟩ := exists_pump_of_handle hhandle
    obtain ⟨frame, hlast, hnodes⟩ := hstate.last
    have hpumped : pumped.nodes = nodes := (pumpClientOps_frame hpump).1
    have hframes := frames_pumpClientOps hpump
    have hslots : Occupied pumped.nodes := hnext
    refine ⟨⟨(pumped.core.now, pumped.nodes.filterMap id), List.getLast?_concat,
      hnext.nodes_eq⟩, ?_⟩
    refine List.isChain_append.mpr ⟨hframes ▸ hstate.chain, List.isChain_singleton _, ?_⟩
    intro first hfirst second hsecond
    obtain rfl := Option.some.inj hsecond
    rw [hframes, hlast] at hfirst
    obtain rfl := Option.some.inj hfirst
    have hshown (j : ℕ) : ((pumped.nodes.filterMap id)[j]?).map some = nodes[j]? := by
      rw [← List.getElem?_map, ← hslots.nodes_eq, hpumped]
    have hbefore (j : ℕ) : (frame.2[j]?).map some = state.nodes[j]? := by
      rw [← List.getElem?_map, ← hnodes]
    have hsame {j : ℕ} (heq : state.nodes[j]? = nodes[j]?) :
        frame.2[j]? = (pumped.nodes.filterMap id)[j]? := by
      rw [← hbefore, ← hshown] at heq
      exact Option.map_injective (Option.some_injective _) heq
    rcases dispatch_nodes hdispatch with rfl | ⟨i, node, rfl, -⟩
    · exact ⟨0, fun j _ ↦ hsame rfl⟩
    · exact ⟨i, fun j hj ↦ hsame (List.getElem?_set_ne (Ne.symm hj)).symm⟩

/-- A frame of the end of a loop is one of its beginning, or the last one of a state after it. -/
theorem Loop.mem_frames {state final : RunState N} {steps : List (Scheduled N × RunState N)}
    (h : Loop codec ops state steps final) {frame : Duration × List N.State}
    (hframe : frame ∈ final.frames) :
    frame ∈ state.frames ∨ ∃ next ∈ steps.map (·.2), next.frames.getLast? = some frame := by
  induction h with
  | stop => exact .inl hframe
  | @turn state next final event steps hturn _ ih =>
    rcases ih hframe with hin | ⟨later, hlater, hlast⟩
    · rcases hturn.frames_eq with ⟨-, heq⟩ | ⟨nodes, heq⟩
      · exact .inl (heq ▸ hin)
      · rw [heq, List.mem_append, List.mem_singleton] at hin
        rcases hin with hin | rfl
        · exact .inl hin
        · refine .inr ⟨next, List.mem_cons_self, ?_⟩
          rw [heq]
          exact List.getLast?_concat
    · exact .inr ⟨later, List.mem_cons_of_mem _ hlater, hlast⟩

section Executions

variable {data : PlanData} {workload : Option Strategy} {seed : Seed}

/-- The first frame shows the nodes that have started. -/
theorem Execution.shown_started (e : Execution N data workload codec seed) : Shown e.started := by
  obtain ⟨core, nodes, -, hpump⟩ := startRun_eq_ok.mp e.start_eq
  have hframes : e.started.frames = [(core.now, nodes.filterMap id)] := frames_pumpClientOps hpump
  have hnodes : e.started.nodes = nodes := (pumpClientOps_frame hpump).1
  have hslots : Occupied nodes := hnodes ▸ occupied_started e.start_eq
  refine ⟨⟨(core.now, nodes.filterMap id), by rw [hframes]; rfl, ?_⟩, ?_⟩
  · rw [hnodes]
    exact hslots.nodes_eq
  · rw [hframes]
    exact List.isChain_singleton _

theorem Execution.shown (e : Execution N data workload codec seed) :
    ∀ state ∈ e.states, Occupied state.nodes ∧ Shown state :=
  e.loop.invariant (P := fun s ↦ Occupied s.nodes ∧ Shown s)
    (fun _ _ _ hs hturn ↦ ⟨hturn.occupied hs.1, hturn.shown hs.1 hs.2⟩)
    ⟨occupied_started e.start_eq, e.shown_started⟩

/-- Every frame is the last one of a state that the run passes through. -/
theorem Execution.exists_state_of_frame (e : Execution N data workload codec seed)
    {frame : Duration × List N.State} (hframe : frame ∈ e.final.frames) :
    ∃ state ∈ e.states, state.frames.getLast? = some frame := by
  rcases e.loop.mem_frames hframe with hin | ⟨state, hstate, hlast⟩
  · refine ⟨e.started, List.mem_cons_self, ?_⟩
    have hlength := e.length_frames_started
    obtain ⟨first, hfirst⟩ := List.length_eq_one_iff.mp hlength
    rw [hfirst] at hin ⊢
    rw [List.mem_singleton.mp hin]
    rfl
  · exact ⟨state, List.mem_cons_of_mem _ hstate, hlast⟩

/-- In every run the frames show all states that the cluster passes through: each has all nodes,
consecutive ones differ in one node at most, and a predicate of the nodes alone holds in all frames
exactly when it holds of all states, and in some frame exactly when it holds of some state. -/
theorem runDeterministic_shown {fuel : ℕ} {nodeDef : Option NodeDef} {run : TypedRun N}
    (h : runDeterministic fuel data nodeDef workload codec seed = .ok (.ok run)) :
    ∃ e : Execution N data workload codec seed, e.result = run ∧
      (∀ frame ∈ run.worldTrace.frames, frame.2.length = (nodeCount data).toNat) ∧
      run.worldTrace.frames.IsChain DifferInOne ∧
      ∀ (prop : Property N.State) (holds : List N.State → Bool),
        (∀ nodes history now, prop.predicate ⟨nodes, history, now⟩ = holds nodes) →
          (prop.kind = .always →
            (evaluateOne prop run.worldTrace run.events = .ok .valid ↔
              ∀ state ∈ e.states, holds (state.nodes.filterMap id) = true)) ∧
          (prop.kind = .sometimes →
            (evaluateOne prop run.worldTrace run.events = .ok .valid ↔
              ∃ state ∈ e.states, holds (state.nodes.filterMap id) = true)) := by
  obtain ⟨e, rfl⟩ := exists_execution h
  have hframes : e.result.worldTrace.frames = e.final.frames := rfl
  have hlast : lastState e.started e.steps ∈ e.states := List.mem_of_getElem? e.states_last
  have hstate {frame : Duration × List N.State} (hframe : frame ∈ e.final.frames) :
      ∃ state ∈ e.states, state.nodes = frame.2.map some := by
    obtain ⟨state, hstate, hlast⟩ := e.exists_state_of_frame hframe
    obtain ⟨shown, hshown, hnodes⟩ := (e.shown state hstate).2.last
    obtain rfl := Option.some.inj (hlast.symm.trans hshown)
    exact ⟨state, hstate, hnodes⟩
  have hframe {state : RunState N} (hin : state ∈ e.states) :
      ∃ frame ∈ e.final.frames, state.nodes = frame.2.map some := by
    obtain ⟨shown, hshown, hnodes⟩ := (e.shown state hin).2.last
    exact ⟨shown, (e.loop.frames_prefix state hin).subset (List.mem_of_getLast? hshown), hnodes⟩
  have hsame {state : RunState N} {frame : Duration × List N.State} {holds : List N.State → Bool}
      {prop : Property N.State}
      (hholds : ∀ nodes history now, prop.predicate ⟨nodes, history, now⟩ = holds nodes)
      (hnodes : state.nodes = frame.2.map some) :
      evalFrame prop e.result.worldTrace frame = holds (state.nodes.filterMap id) := by
    rw [evalFrame, hholds, hnodes, List.filterMap_map]
    exact congrArg holds List.filterMap_some.symm
  refine ⟨e, rfl, fun frame hin ↦ ?_, ?_, fun prop holds hholds ↦ ⟨fun hkind ↦ ?_, fun hkind ↦ ?_⟩⟩
  · obtain ⟨state, hin, hnodes⟩ := hstate hin
    have hlength := e.length_nodes state hin
    rwa [hnodes, List.length_map, e.prepared_nodeCount] at hlength
  · rw [hframes, e.frames_final]
    exact (e.shown _ hlast).2.chain
  · rw [evaluateOne_always_iff hkind, hframes]
    constructor
    · intro hall state hin
      obtain ⟨frame, hin, hnodes⟩ := hframe hin
      rw [← hsame hholds hnodes]
      exact hall frame hin
    · intro hall frame hin
      obtain ⟨state, hin, hnodes⟩ := hstate hin
      rw [hsame hholds hnodes]
      exact hall state hin
  · rw [evaluateOne_sometimes_iff hkind, hframes]
    constructor
    · rintro ⟨frame, hin, hframe⟩
      obtain ⟨state, hin, hnodes⟩ := hstate hin
      exact ⟨state, hin, (hsame hholds hnodes).symm.trans hframe⟩
    · rintro ⟨state, hin, hholding⟩
      obtain ⟨frame, hin, hnodes⟩ := hframe hin
      exact ⟨frame, hin, (hsame hholds hnodes).trans hholding⟩

end Executions

/-- One of the counters has counted one operation. -/
def anyCounted (counts : List ℕ) : Bool := counts.contains 1

/-- A counter counts an operation at some time. -/
def counted : Property counter.State :=
  ⟨"counted", .sometimes, fun world ↦ anyCounted world.nodes, none⟩

/-- The frames show whether one of two counters counts an operation. -/
theorem counterScript_shown :
    ∃ run, runDeterministic 8 counterScript none none (some counterCodec) ⟨0⟩ = .ok (.ok run) ∧
      ∃ e : Execution counter counterScript none (some counterCodec) ⟨0⟩, e.result = run ∧
        (∀ frame ∈ run.worldTrace.frames, frame.2.length = 2) ∧
        run.worldTrace.frames.IsChain DifferInOne ∧
        (evaluateOne counted run.worldTrace run.events = .ok .valid ↔
          ∃ state ∈ e.states, anyCounted (state.nodes.filterMap id) = true) := by
  obtain ⟨run, hrun⟩ := exists_run_of_isSome (N := counter)
    (x := runDeterministic 8 counterScript none none (some counterCodec) ⟨0⟩) (by decide +kernel)
  obtain ⟨e, he, hcomplete, hchain, hshown⟩ := runDeterministic_shown hrun
  exact ⟨run, hrun, e, he, hcomplete, hchain, (hshown counted anyCounted fun _ _ _ ↦ rfl).2 rfl⟩

end Propsim.Simulator
