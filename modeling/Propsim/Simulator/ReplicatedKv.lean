import Propsim.Simulator.Commitment

/-!
# The replicated key-value example

`propsim-sim/tests/replicated_kv_linearizable.rs`: a primary applies a write, replicates it, and
completes it when a backup has acknowledged it; a read is answered from the store of the node that
it lands on. As long as all operations land on the primary, every run is linearizable, for every
number of nodes and under every network, fault schedule and seed (`kv_linearizable`): a write takes
effect when it is called, and its acknowledgements only decide when the client hears of it.
-/

set_option autoImplicit false
set_option relaxedAutoImplicit false

namespace Propsim.Simulator

open Foundation Interchange Propsim.Core Propsim.Oracle

/-! ### The node -/

inductive KvMsg
  | replicate (seq k v : Int64) (primary : NodeId)
  | ack (seq : Int64)

inductive KvOp
  | read (k : Int64)
  | write (k v : Int64)

inductive KvResp
  | read (v : Int64)
  | write (v : Int64)

/-- A node of the store. A write in flight is a token, the value, and the votes so far. -/
structure KvState where
  me : UInt64
  store : Std.TreeMap Int64 Int64
  inflight : Std.TreeMap Int64 (OpToken × Int64 × UInt32)
  nextSeq : Int64

def kvPrimary : UInt64 := 0

/-- The vote of the primary, and one acknowledgement of a backup. -/
def kvQuorum : UInt32 := 2

/-- A node of the replicated store. The sequence numbers of a stream do not wrap around. -/
def kvNode : Node where
  State := KvState
  Msg := KvMsg
  Timer := Unit
  Op := KvOp
  Response := KvResp
  default := ⟨0, ∅, ∅, 0⟩
  debug _ := "()"
  onStart state := .me fun me ↦ .done { state with me := me.id }
  onMsg state _ msg :=
    match msg with
    | .replicate seq k v primary =>
      .send primary (.ack seq) (.done { state with store := state.store.insert k v })
    | .ack seq =>
      match state.inflight[seq]? with
      | none => .done state
      | some (tok, v, acks) =>
        if kvQuorum ≤ acks + 1 then
          .completeOp tok (.ok (.write v))
            (.done { state with inflight := state.inflight.erase seq })
        else .done { state with inflight := state.inflight.insert seq (tok, v, acks + 1) }
  onTimer state _ := .done state
  onClientOp state op token :=
    match op with
    | .read k => .done (state, .done (.read (state.store[k]?.getD 0)))
    | .write k v =>
      if state.me ≠ kvPrimary then .done (state, .done (.write v))
      else
        .broadcast (.replicate state.nextSeq k v ⟨state.me⟩) (.done
          ({ state with
              nextSeq := state.nextSeq + 1
              store := state.store.insert k v
              inflight := state.inflight.insert state.nextSeq (token, v, 1) },
            .pending))

/-! ### The spec -/

/-- The operations of clients, `[:write k v]` and `[:read k]`. -/
def kvCodec : ClientCodec kvNode where
  decode value :=
    match value with
    | .list [.keyword f, .int k, .int v] =>
      if f = "write" then some (⟨"write"⟩, .write k v) else none
    | .list [.keyword f, .int k] => if f = "read" then some (⟨"read"⟩, .read k) else none
    | _ => none
  encodeResponse _ resp :=
    match resp with
    | .read v => .int v
    | .write v => .int v

/-- The sequential model: a single register, whatever the key. -/
def kvSpec : SequentialModel where
  State := Int64
  Op := KvOp
  init := 0
  step s op :=
    match op with
    | .read _ => (s, ⟨.int s⟩)
    | .write _ v => (v, ⟨.int v⟩)
  decode f valueInvoke valueComplete :=
    if f = "write" then
      match valueInvoke with
      | .list [_, .int k, .int v] => some (.write k v, ⟨.int v⟩)
      | _ => none
    else if f = "read" then
      match valueComplete with
      | .int v => some (.read 0, ⟨.int v⟩)
      | _ => none
    else none

/-! ### Linearizability -/

/-- The key of an operation. -/
def KvOp.key : KvOp → Int64
  | .read k => k
  | .write k _ => k

/-- The operation of the model that an operation of the store is: reads are of the one register. -/
def KvOp.onRegister : KvOp → KvOp
  | .read _ => .read 0
  | .write k v => .write k v

/-- What the register holds of a store. -/
def KvState.register (key : Int64) (state : KvState) : Int64 := state.store[key]?.getD 0

theorem KvState.register_congr {a b : KvState} (h : a.store = b.store) (key : Int64) :
    a.register key = b.register key := by
  rw [register, register, h]

theorem KvState.register_of_insert {a b : KvState} {key v : Int64}
    (h : a.store = b.store.insert key v) : a.register key = v := by
  rw [register, h, Std.TreeMap.getElem?_insert_self, Option.getD_some]

/-- Only backups are sent replicates. -/
def ForBackup : NodeId × Envelope kvNode → Prop
  | (recipient, .message _ (.replicate _ _ _ _)) => recipient ≠ ⟨kvPrimary⟩
  | _ => True

section Protocol

variable {ops : List FrozenOp} {count : UInt64} {me : NodeId} {peers : List NodeId}
  {out : List (Emission KvMsg Unit KvResp)} {state state' : KvState}

/-- A node takes note of its id when it starts. -/
theorem yields_kv_onStart (h : Yields me peers (kvNode.onStart state) out state') :
    out = [] ∧ state' = { state with me := me.id } := by
  simpa [kvNode] using h

/-- An acknowledgement touches neither the store nor the id of the node. It puts nothing out, or
completes a write. -/
theorem yields_kv_ack {sender : NodeId} {seq : Int64}
    (h : Yields me peers (kvNode.onMsg state sender (.ack seq)) out state') :
    state'.store = state.store ∧ state'.me = state.me ∧
      (out = [] ∨ ∃ token v, out = [.completeOp token (.ok (.write v))]) := by
  simp only [kvNode] at h
  split at h
  · obtain ⟨rfl, rfl⟩ := yields_done_iff.mp h
    exact ⟨rfl, rfl, .inl rfl⟩
  · split_ifs at h
    · obtain ⟨rest, hdone, rfl⟩ := yields_completeOp_iff.mp h
      obtain ⟨rfl, rfl⟩ := yields_done_iff.mp hdone
      exact ⟨rfl, rfl, .inr ⟨_, _, rfl⟩⟩
    · obtain ⟨rfl, rfl⟩ := yields_done_iff.mp h
      exact ⟨rfl, rfl, .inl rfl⟩

/-- A replicate is applied and acknowledged. -/
theorem yields_kv_replicate {sender primary : NodeId} {seq k v : Int64}
    (h : Yields me peers (kvNode.onMsg state sender (.replicate seq k v primary)) out state') :
    state' = { state with store := state.store.insert k v } ∧
      out = [.send primary (.ack seq)] := by
  obtain ⟨rest, hdone, rfl⟩ := yields_send_iff.mp h
  obtain ⟨rfl, rfl⟩ := yields_done_iff.mp hdone
  exact ⟨rfl, rfl⟩

/-- The primary applies a write, replicates it, and leaves it pending. -/
theorem yields_kv_write {k v : Int64} {token : OpToken} {outcome : OpOutcome KvResp}
    (hme : state.me = kvPrimary)
    (h : Yields me peers (kvNode.onClientOp state (.write k v) token) out (state', outcome)) :
    state'.store = state.store.insert k v ∧ state'.me = state.me ∧ outcome = .pending ∧
      out = peers.map (.send · (.replicate state.nextSeq k v ⟨state.me⟩)) := by
  have hprimary : ¬(state.me ≠ kvPrimary) := not_not_intro hme
  simp only [kvNode, if_neg hprimary] at h
  obtain ⟨rest, hdone, rfl⟩ := yields_broadcast_iff.mp h
  obtain ⟨rfl, hresult⟩ := yields_done_iff.mp hdone
  obtain ⟨rfl, rfl⟩ := Prod.mk.inj hresult
  exact ⟨rfl, rfl, rfl, List.append_nil _⟩

/-- A read is answered from the store. -/
theorem yields_kv_read {k : Int64} {token : OpToken} {outcome : OpOutcome KvResp}
    (h : Yields me peers (kvNode.onClientOp state (.read k) token) out (state', outcome)) :
    state' = state ∧ outcome = .done (.read (state.register k)) ∧ out = [] := by
  obtain ⟨rfl, hresult⟩ := yields_done_iff.mp h
  obtain ⟨rfl, rfl⟩ := Prod.mk.inj hresult
  exact ⟨rfl, rfl, rfl⟩

/-- The primary knows that it is the primary, and is sent no replicates. -/
theorem kv_keeps (hrouted : ∀ op ∈ ops, target op op.process count.toNat = kvPrimary.toNat) :
    (asyncProtocol kvNode (some kvCodec) ops count).Keeps
      (fun me (state : KvState) ↦ me = ⟨kvPrimary⟩ → state.me = kvPrimary) ForBackup where
  init _ _ := rfl
  act me state state' out hstate hacts := by
    cases hacts with
    | start hme h =>
      obtain ⟨rfl, rfl⟩ := yields_kv_onStart h
      exact ⟨fun heq ↦ congrArg NodeId.id heq, List.forall_mem_nil _⟩
    | @serve op f typedOp token _ outcome emitted hme hop hdecode htarget h =>
      have heq : me = ⟨kvPrimary⟩ :=
        NodeId.eq_of_toNat_eq (htarget.symm.trans (hrouted op hop))
      cases typedOp with
      | read k =>
        obtain ⟨rfl, -, rfl⟩ := yields_kv_read h
        exact ⟨hstate, List.forall_mem_nil _⟩
      | write k v =>
        obtain ⟨-, hsame, -, rfl⟩ := yields_kv_write (hstate heq) h
        refine ⟨fun _ ↦ hsame.trans (hstate heq), fun item hitem ↦ ?_⟩
        obtain ⟨emission, hemission, haddressed⟩ := List.mem_filterMap.mp hitem
        obtain ⟨peer, hpeer, rfl⟩ := List.mem_map.mp hemission
        obtain rfl := Option.some.inj haddressed
        have hne : peer ≠ me := of_decide_eq_true (List.mem_filter.mp hpeer).2
        exact heq ▸ hne
  take me item state state' out hstate hsound htakes := by
    obtain ⟨hme, h⟩ := htakes
    cases item with
    | message sender msg =>
      cases msg with
      | replicate seq k v primary =>
        obtain ⟨rfl, rfl⟩ := yields_kv_replicate h
        exact ⟨hstate, List.forall_mem_singleton.mpr trivial⟩
      | ack seq =>
        obtain ⟨-, hsame, rfl | ⟨token, v, rfl⟩⟩ := yields_kv_ack h
        · exact ⟨fun heq ↦ hsame.trans (hstate heq), List.forall_mem_nil _⟩
        · exact ⟨fun heq ↦ hsame.trans (hstate heq), List.forall_mem_nil _⟩
    | timer timer =>
      obtain ⟨rfl, rfl⟩ := yields_done_iff.mp h
      exact ⟨hstate, List.forall_mem_nil _⟩

/-- The codec decodes reads and writes under their names. -/
theorem kvCodec_decode {value : Value} {f : Function} {op : KvOp}
    (h : kvCodec.decode value = some (f, op)) :
    (∃ k v, f = ⟨"write"⟩ ∧ op = .write k v ∧
        value = .list [.keyword "write", .int k, .int v]) ∨
      ∃ k, f = ⟨"read"⟩ ∧ op = .read k := by
  simp only [kvCodec] at h
  split at h
  · split_ifs at h with hf
    obtain ⟨rfl, rfl⟩ := Prod.mk.inj (Option.some.inj h)
    exact .inl ⟨_, _, rfl, rfl, by rw [hf]⟩
  · split_ifs at h
    obtain ⟨rfl, rfl⟩ := Prod.mk.inj (Option.some.inj h)
    exact .inr ⟨_, rfl, rfl⟩
  · cases h

/-- The primary commits operations on one key when they are called. -/
theorem kv_commitsOnCall {key : Int64}
    (hrouted : ∀ op ∈ ops, target op op.process count.toNat = kvPrimary.toNat)
    (hkey : ∀ op ∈ ops, ∀ f kvOp, kvCodec.decode op.op = some (f, kvOp) → kvOp.key = key) :
    CommitsOnCall kvSpec kvCodec ops count ⟨kvPrimary⟩
      (fun value ↦ (kvCodec.decode value).map fun decoded ↦ decoded.2.onRegister)
      (KvState.register key) (fun me state ↦ me = ⟨kvPrimary⟩ → state.me = kvPrimary)
      ForBackup where
  keeps := kv_keeps hrouted
  init := by
    change (((∅ : Std.TreeMap Int64 Int64)[key]?).getD 0 : Int64) = 0
    rw [Std.TreeMap.getElem?_emptyc, Option.getD_none]
  onStart me node node' out hgood h := by
    obtain ⟨rfl, rfl⟩ := yields_kv_onStart h
    exact ⟨fun _ ↦ List.not_mem_nil, fun _ ↦ rfl⟩
  onTake me envelope node node' out hgood hsound h := by
    cases envelope with
    | message sender msg =>
      cases msg with
      | replicate seq k v primary =>
        obtain ⟨rfl, rfl⟩ := yields_kv_replicate h
        refine ⟨fun token hin ↦ ?_, fun heq ↦ absurd heq hsound⟩
        cases List.mem_singleton.mp hin
      | ack seq =>
        obtain ⟨hstore, -, hout⟩ := yields_kv_ack h
        refine ⟨fun token hin ↦ ?_, fun _ ↦ KvState.register_congr hstore key⟩
        rcases hout with rfl | ⟨token', v, rfl⟩
        · cases hin
        · cases List.mem_singleton.mp hin
    | timer timer =>
      obtain ⟨rfl, rfl⟩ := yields_done_iff.mp h
      exact ⟨fun _ ↦ List.not_mem_nil, fun _ ↦ rfl⟩
  onCall op hop f kvOp token node node' outcome out hgood hdecode h := by
    have hsame := hkey op hop f kvOp hdecode
    rcases kvCodec_decode hdecode with ⟨k, v, rfl, rfl, hvalue⟩ | ⟨k, rfl, rfl⟩
    · obtain rfl : k = key := hsame
      obtain ⟨hstore, -, rfl, rfl⟩ := yields_kv_write (hgood rfl) h
      refine ⟨fun token completion hin ↦ ?_, .write k v, by rw [hdecode]; rfl, ?_,
        fun completion ↦ ?_⟩
      · obtain ⟨peer, -, heq⟩ := List.mem_map.mp hin
        cases heq
      · exact KvState.register_of_insert hstore
      · rw [hvalue]
        exact ⟨⟨.int v⟩, rfl, fun s ↦ by simp [kvSpec, Response.eq, Value.eq]⟩
    · obtain rfl : k = key := hsame
      obtain ⟨rfl, rfl, rfl⟩ := yields_kv_read h
      refine ⟨fun _ _ ↦ List.not_mem_nil, .read 0, by rw [hdecode]; rfl, rfl,
        ⟨.int (KvState.register k node')⟩, rfl, ?_⟩
      simp [kvSpec, Response.eq, Value.eq]
  undecoded op hop hdecode := by rw [hdecode]; rfl

end Protocol

section Executions

variable {data : PlanData} {workload : Option Strategy} {seed : Seed}

/-- Every run of the store is linearizable. Assumes: every operation is routed to the primary, and
all operations are on one key, as the model has one register. -/
theorem kv_linearizable {fuel : ℕ} {nodeDef : Option NodeDef} {run : TypedRun kvNode} {key : Int64}
    (hrouted : ∀ op ∈ resolveOps data workload seed,
      target op op.process (nodeCount data).toNat = kvPrimary.toNat)
    (hkey : ∀ op ∈ resolveOps data workload seed, ∀ f kvOp,
      kvCodec.decode op.op = some (f, kvOp) → kvOp.key = key)
    (h : runDeterministic fuel data nodeDef workload (some kvCodec) seed = .ok (.ok run)) :
    ((linearizableOracle kvSpec).check (run.output seed)).isValid = true :=
  (kv_commitsOnCall hrouted hkey).check_isValid
    (UInt64.lt_iff_toNat_lt.mpr (nodeCount_pos data)) hrouted h

end Executions

/-- A network with a fixed delay, so that a write completes after its invocation. -/
def delayedNet : NetworkModel := ⟨⟨10, 11⟩, .never, .never, true⟩

/-- Three nodes on the delayed network. -/
def kvPlan (script : List ScriptedEvent) (ops : List FrozenOp) : PlanData :=
  ⟨3, some delayedNet, some ⟨.scripted script, .safety⟩, 1,
    some (.new ops ⟨.scripted script, .safety⟩)⟩

def writeOp (k v : Int64) : Value := .list [.keyword "write", .int k, .int v]

def readOp (k : Int64) : Value := .list [.keyword "read", .int k]

/-- A write of the first client that a read of the second one overlaps, with the second backup cut
off. -/
def overlappingPlan : PlanData :=
  kvPlan [⟨.zero, .partition [⟨0⟩, ⟨1⟩] [⟨2⟩]⟩]
    [⟨⟨0⟩, some ⟨0⟩, writeOp 0 1⟩, ⟨⟨1⟩, some ⟨0⟩, readOp 0⟩]

theorem overlappingPlan_linearizable :
    ∃ run, runDeterministic 40 overlappingPlan none none (some kvCodec) ⟨0xC0FFEE⟩ =
        .ok (.ok run) ∧
      ((linearizableOracle kvSpec).check (run.output ⟨0xC0FFEE⟩)).isValid = true := by
  obtain ⟨run, hrun⟩ := exists_run_of_isSome (N := kvNode)
    (x := runDeterministic 40 overlappingPlan none none (some kvCodec) ⟨0xC0FFEE⟩)
    (by decide +kernel)
  have hops : resolveOps overlappingPlan none ⟨0xC0FFEE⟩ =
      [⟨⟨0⟩, some ⟨0⟩, writeOp 0 1⟩, ⟨⟨1⟩, some ⟨0⟩, readOp 0⟩] := rfl
  have hrouted : ∀ op ∈ resolveOps overlappingPlan none ⟨0xC0FFEE⟩,
      target op op.process (nodeCount overlappingPlan).toNat = kvPrimary.toNat := by
    rw [hops]
    simp only [List.forall_mem_cons, List.not_mem_nil, false_imp_iff, implies_true, and_true]
    decide +kernel
  have hkey : ∀ op ∈ resolveOps overlappingPlan none ⟨0xC0FFEE⟩, ∀ f kvOp,
      kvCodec.decode op.op = some (f, kvOp) → kvOp.key = 0 := by
    have hwrite : kvCodec.decode (writeOp 0 1) = some (⟨"write"⟩, .write 0 1) := by
      simp [kvCodec, writeOp]
    have hread : kvCodec.decode (readOp 0) = some (⟨"read"⟩, .read 0) := by
      simp [kvCodec, readOp]
    rw [hops]
    refine List.forall_mem_cons.mpr ⟨fun f kvOp h ↦ ?_, List.forall_mem_singleton.mpr
      fun f kvOp h ↦ ?_⟩
    · obtain rfl := congrArg Prod.snd (Option.some.inj (hwrite.symm.trans h))
      rfl
    · obtain rfl := congrArg Prod.snd (Option.some.inj (hread.symm.trans h))
      rfl
  exact ⟨run, hrun, kv_linearizable hrouted hkey hrun⟩

/-- A read of the backup that missed a completed write is caught. -/
example :
    (match runDeterministic 40
        (kvPlan [⟨.zero, .partition [⟨0⟩, ⟨1⟩] [⟨2⟩]⟩]
          [⟨⟨0⟩, some ⟨0⟩, writeOp 0 1⟩, ⟨⟨0⟩, some ⟨2⟩, readOp 0⟩])
        none none (some kvCodec) ⟨0xC0FFEE⟩ with
      | .ok (.ok run) => ((linearizableOracle kvSpec).check (run.output ⟨0xC0FFEE⟩)).isValid
      | _ => true) = false := by
  decide +kernel

end Propsim.Simulator
