import Propsim.Foundation.Binary64

/-!
# Operation entries and histories

The history shape of `op.rs` and `time.rs`: operation entries with their lifecycle kind, their
process, their function and a self-describing payload. `Value.eq` is the derived `PartialEq`. It
differs from identity only at floats, where it is the IEEE comparison, so a payload that holds a
NaN is not equal to itself.
-/

set_option autoImplicit false
set_option relaxedAutoImplicit false

namespace Propsim.Interchange

open Foundation

/-- A process (logical client) of a history. -/
structure ProcessId where
  id : UInt64
  deriving DecidableEq, Repr

/-- The lifecycle kind of an operation entry, Jepsen's `:type`. -/
inductive OpKind
  | invoke
  | ok
  | fail
  | info
  deriving DecidableEq, Repr

/-- The Jepsen `:type` keyword name. -/
def OpKind.keyword : OpKind → String
  | .invoke => "invoke"
  | .ok => "ok"
  | .fail => "fail"
  | .info => "info"

/-- Parses a Jepsen `:type` keyword name. -/
def OpKind.fromKeyword (s : String) : Option OpKind :=
  if s = "invoke" then some .invoke
  else if s = "ok" then some .ok
  else if s = "fail" then some .fail
  else if s = "info" then some .info
  else none

theorem OpKind.fromKeyword_keyword (kind : OpKind) : fromKeyword kind.keyword = some kind := by
  cases kind <;> rfl

/-- The operation function, Jepsen's `:f`. -/
structure Function where
  name : String
  deriving DecidableEq, Repr

/-- Provenance of a timestamp. -/
inductive Clock
  | virtual
  | wall
  deriving DecidableEq, Repr

/-- A nanosecond timestamp tagged with the clock it was read from. -/
structure Time where
  nanos : Int64
  clock : Clock
  deriving DecidableEq, Repr

/-- A virtual-clock timestamp. -/
def Time.virtualNanos (nanos : Int64) : Time := ⟨nanos, .virtual⟩

/-- A self-describing operation payload or return value. -/
inductive Value
  | nil
  | bool (b : Bool)
  | int (i : Int64)
  | float (f : Binary64)
  | str (s : String)
  | keyword (k : String)
  | list (items : List Value)
  | map (pairs : List (Value × Value))

/-- Induction over the nesting of a value. -/
theorem Value.induct {P : Value → Prop} (nil : P .nil) (bool : ∀ b, P (.bool b))
    (int : ∀ i, P (.int i)) (float : ∀ f, P (.float f)) (str : ∀ s, P (.str s))
    (keyword : ∀ k, P (.keyword k)) (list : ∀ items, (∀ v ∈ items, P v) → P (.list items))
    (map : ∀ pairs, (∀ p ∈ pairs, P p.1 ∧ P p.2) → P (.map pairs)) (v : Value) : P v :=
  @Value.rec P (fun items ↦ ∀ v ∈ items, P v) (fun pairs ↦ ∀ p ∈ pairs, P p.1 ∧ P p.2)
    (fun p ↦ P p.1 ∧ P p.2) nil bool int float str keyword list map (by simp)
    (fun _ _ hhead htail ↦ List.forall_mem_cons.mpr ⟨hhead, htail⟩) (by simp)
    (fun _ _ hhead htail ↦ List.forall_mem_cons.mpr ⟨hhead, htail⟩) (fun _ _ hk hv ↦ ⟨hk, hv⟩) v

mutual

/-- The derived `PartialEq` of `Value`. -/
def Value.eq : Value → Value → Bool
  | .nil, .nil => true
  | .bool a, .bool b => a == b
  | .int a, .int b => a == b
  | .float a, .float b => a.eq b
  | .str a, .str b => a == b
  | .keyword a, .keyword b => a == b
  | .list a, .list b => Value.eqItems a b
  | .map a, .map b => Value.eqPairs a b
  | _, _ => false

/-- Equality of vectors of values. -/
def Value.eqItems : List Value → List Value → Bool
  | [], [] => true
  | a :: as, b :: bs => Value.eq a b && Value.eqItems as bs
  | _, _ => false

/-- Equality of vectors of pairs of values. -/
def Value.eqPairs : List (Value × Value) → List (Value × Value) → Bool
  | [], [] => true
  | a :: as, b :: bs => Value.eqPair a b && Value.eqPairs as bs
  | _, _ => false

/-- Equality of pairs of values. -/
def Value.eqPair : Value × Value → Value × Value → Bool
  | (ak, av), (bk, bv) => Value.eq ak bk && Value.eq av bv

end

mutual

/-- Identity of values, which tells a float from any other of its bits. -/
def Value.same : Value → Value → Bool
  | .nil, .nil => true
  | .bool a, .bool b => a == b
  | .int a, .int b => a == b
  | .float a, .float b => a == b
  | .str a, .str b => a == b
  | .keyword a, .keyword b => a == b
  | .list a, .list b => Value.sameItems a b
  | .map a, .map b => Value.samePairs a b
  | _, _ => false

/-- Identity of vectors of values. -/
def Value.sameItems : List Value → List Value → Bool
  | [], [] => true
  | a :: as, b :: bs => Value.same a b && Value.sameItems as bs
  | _, _ => false

/-- Identity of vectors of pairs of values. -/
def Value.samePairs : List (Value × Value) → List (Value × Value) → Bool
  | [], [] => true
  | a :: as, b :: bs => Value.samePair a b && Value.samePairs as bs
  | _, _ => false

/-- Identity of pairs of values. -/
def Value.samePair : Value × Value → Value × Value → Bool
  | (ak, av), (bk, bv) => Value.same ak bk && Value.same av bv

end

theorem Value.sameItems_iff {items : List Value}
    (h : ∀ v ∈ items, ∀ w, Value.same v w = true ↔ v = w) (others : List Value) :
    Value.sameItems items others = true ↔ items = others := by
  induction items generalizing others with
  | nil => cases others <;> simp [Value.sameItems]
  | cons v items ih =>
    rw [List.forall_mem_cons] at h
    cases others with
    | nil => simp [Value.sameItems]
    | cons w others => simp [Value.sameItems, h.1 w, ih h.2 others]

theorem Value.samePairs_iff {pairs : List (Value × Value)}
    (h : ∀ p ∈ pairs, (∀ w, Value.same p.1 w = true ↔ p.1 = w) ∧
      ∀ w, Value.same p.2 w = true ↔ p.2 = w) (others : List (Value × Value)) :
    Value.samePairs pairs others = true ↔ pairs = others := by
  induction pairs generalizing others with
  | nil => cases others <;> simp [Value.samePairs]
  | cons p pairs ih =>
    rw [List.forall_mem_cons] at h
    cases others with
    | nil => simp [Value.samePairs]
    | cons q others =>
      obtain ⟨k, v⟩ := p
      obtain ⟨k', v'⟩ := q
      simp [Value.samePairs, Value.samePair, h.1.1 k', h.1.2 v', ih h.2 others]

theorem Value.same_iff (v w : Value) : Value.same v w = true ↔ v = w := by
  induction v using Value.induct generalizing w with
  | list items ih =>
    cases w with
    | list others => simp [Value.same, Value.sameItems_iff ih]
    | _ => simp [Value.same]
  | map pairs ih =>
    cases w with
    | map others => simp [Value.same, Value.samePairs_iff ih]
    | _ => simp [Value.same]
  | _ => cases w <;> simp [Value.same]

instance : DecidableEq Value := fun v w ↦ decidable_of_iff _ (Value.same_iff v w)

mutual

/-- The values nested in a value: itself, and those of its items, keys and values. -/
def Value.parts : Value → List Value
  | .list items => .list items :: Value.partsOfItems items
  | .map pairs => .map pairs :: Value.partsOfPairs pairs
  | v => [v]

/-- The values nested in a vector of values. -/
def Value.partsOfItems : List Value → List Value
  | [] => []
  | v :: rest => Value.parts v ++ Value.partsOfItems rest

/-- The values nested in a vector of pairs of values. -/
def Value.partsOfPairs : List (Value × Value) → List Value
  | [] => []
  | p :: rest => Value.partsOfPair p ++ Value.partsOfPairs rest

/-- The values nested in a pair of values. -/
def Value.partsOfPair : Value × Value → List Value
  | (k, v) => Value.parts k ++ Value.parts v

end

theorem Value.mem_parts_list {items : List Value} {w : Value} :
    w ∈ (Value.list items).parts ↔ w = .list items ∨ ∃ v ∈ items, w ∈ v.parts := by
  have hitems : w ∈ Value.partsOfItems items ↔ ∃ v ∈ items, w ∈ v.parts := by
    induction items with
    | nil => simp [Value.partsOfItems]
    | cons v rest ih => simp [Value.partsOfItems, ih]
  rw [Value.parts, List.mem_cons, hitems]

theorem Value.mem_parts_map {pairs : List (Value × Value)} {w : Value} :
    w ∈ (Value.map pairs).parts ↔
      w = .map pairs ∨ ∃ p ∈ pairs, w ∈ p.1.parts ∨ w ∈ p.2.parts := by
  have hpairs : w ∈ Value.partsOfPairs pairs ↔ ∃ p ∈ pairs, w ∈ p.1.parts ∨ w ∈ p.2.parts := by
    induction pairs with
    | nil => simp [Value.partsOfPairs]
    | cons p rest ih =>
      obtain ⟨k, v⟩ := p
      simp [Value.partsOfPairs, Value.partsOfPair, ih, or_assoc]
  rw [Value.parts, List.mem_cons, hpairs]

/-- One entry of a history, Jepsen's operation map. -/
structure OpEntry where
  index : UInt64
  time : Time
  kind : OpKind
  process : ProcessId
  f : Function
  value : Value
  deriving DecidableEq

/-- The derived `PartialEq` of `OpEntry`. -/
def OpEntry.eq (a b : OpEntry) : Bool :=
  a.index == b.index && a.time == b.time && a.kind == b.kind && a.process == b.process &&
    a.f == b.f && a.value.eq b.value

/-- A value that holds no NaN, however deep. -/
def Value.NaNFree (v : Value) : Prop := ∀ x, .float x ∈ v.parts → x.isNaN = false

theorem Value.eqItems_self_iff (items : List Value) :
    Value.eqItems items items = true ↔ ∀ v ∈ items, v.eq v = true := by
  induction items with
  | nil => simp [Value.eqItems]
  | cons v rest ih => simp [Value.eqItems, ih]

theorem Value.eqPairs_self_iff (pairs : List (Value × Value)) :
    Value.eqPairs pairs pairs = true ↔ ∀ p ∈ pairs, p.1.eq p.1 = true ∧ p.2.eq p.2 = true := by
  induction pairs with
  | nil => simp [Value.eqPairs]
  | cons p rest ih =>
    obtain ⟨k, v⟩ := p
    simp [Value.eqPairs, Value.eqPair, ih]

/-- A value equals itself exactly when it holds no NaN. -/
theorem Value.eq_self_iff (v : Value) : v.eq v = true ↔ v.NaNFree := by
  induction v using Value.induct with
  | list items ih =>
    rw [Value.eq, Value.eqItems_self_iff]
    simp only [Value.NaNFree, Value.mem_parts_list]
    constructor
    · rintro h x (heq | ⟨v, hv, hx⟩)
      · cases heq
      · exact (ih v hv).mp (h v hv) x hx
    · exact fun h v hv ↦ (ih v hv).mpr fun x hx ↦ h x (.inr ⟨v, hv, hx⟩)
  | map pairs ih =>
    rw [Value.eq, Value.eqPairs_self_iff]
    simp only [Value.NaNFree, Value.mem_parts_map]
    constructor
    · rintro h x (heq | ⟨p, hp, hx | hx⟩)
      · cases heq
      · exact (ih p hp).1.mp (h p hp).1 x hx
      · exact (ih p hp).2.mp (h p hp).2 x hx
    · exact fun h p hp ↦ ⟨(ih p hp).1.mpr fun x hx ↦ h x (.inr ⟨p, hp, .inl hx⟩),
        (ih p hp).2.mpr fun x hx ↦ h x (.inr ⟨p, hp, .inr hx⟩)⟩
  | float x => simp [Value.eq, Value.NaNFree, Value.parts, Binary64.eq]
  | _ => simp [Value.eq, Value.NaNFree, Value.parts]

theorem OpEntry.eq_self_iff (e : OpEntry) : e.eq e = true ↔ e.value.NaNFree := by
  simp [OpEntry.eq, Value.eq_self_iff]

/-- A value that holds no zero float, which equality would not tell from the zero of the other
sign. -/
def Value.ZeroFree (v : Value) : Prop := ∀ x, .float x ∈ v.parts → x.scaled ≠ 0

theorem Value.eq_of_eqItems {items others : List Value}
    (h : ∀ v ∈ items, ∀ w, v.eq w = true → v = w) (heq : Value.eqItems items others = true) :
    items = others := by
  induction items generalizing others with
  | nil =>
    cases others with
    | nil => rfl
    | cons w others => simp [Value.eqItems] at heq
  | cons v items ih =>
    rw [List.forall_mem_cons] at h
    cases others with
    | nil => simp [Value.eqItems] at heq
    | cons w others =>
      rw [Value.eqItems, Bool.and_eq_true] at heq
      rw [h.1 w heq.1, ih h.2 heq.2]

theorem Value.eq_of_eqPairs {pairs others : List (Value × Value)}
    (h : ∀ p ∈ pairs, (∀ w, p.1.eq w = true → p.1 = w) ∧ ∀ w, p.2.eq w = true → p.2 = w)
    (heq : Value.eqPairs pairs others = true) : pairs = others := by
  induction pairs generalizing others with
  | nil =>
    cases others with
    | nil => rfl
    | cons q others => simp [Value.eqPairs] at heq
  | cons p pairs ih =>
    rw [List.forall_mem_cons] at h
    cases others with
    | nil => simp [Value.eqPairs] at heq
    | cons q others =>
      obtain ⟨k, v⟩ := p
      obtain ⟨k', v'⟩ := q
      simp only [Value.eqPairs, Value.eqPair, Bool.and_eq_true] at heq
      obtain rfl : k = k' := h.1.1 k' heq.1.1
      obtain rfl : v = v' := h.1.2 v' heq.1.2
      rw [ih h.2 heq.2]

/-- Values that are equal and hold no zero float are the same. -/
theorem Value.eq_of_eq {v w : Value} (h : v.eq w = true) (hzero : v.ZeroFree) : v = w := by
  induction v using Value.induct generalizing w with
  | list items ih =>
    cases w with
    | list others =>
      rw [Value.eq] at h
      refine congrArg _ (Value.eq_of_eqItems (fun v hv w heq ↦ ih v hv heq fun x hx ↦ ?_) h)
      exact hzero x (Value.mem_parts_list.mpr (.inr ⟨v, hv, hx⟩))
    | _ => simp [Value.eq] at h
  | map pairs ih =>
    cases w with
    | map others =>
      rw [Value.eq] at h
      refine congrArg _ (Value.eq_of_eqPairs (fun p hp ↦ ⟨fun w heq ↦ (ih p hp).1 heq fun x hx ↦ ?_,
        fun w heq ↦ (ih p hp).2 heq fun x hx ↦ ?_⟩) h)
      · exact hzero x (Value.mem_parts_map.mpr (.inr ⟨p, hp, .inl hx⟩))
      · exact hzero x (Value.mem_parts_map.mpr (.inr ⟨p, hp, .inr hx⟩))
    | _ => simp [Value.eq] at h
  | float x =>
    cases w with
    | float y =>
      rw [Value.eq] at h
      exact congrArg _ (Binary64.eq_of_eq h (hzero x (by simp [Value.parts])))
    | _ => simp [Value.eq] at h
  | _ => cases w <;> simp_all [Value.eq]

theorem OpEntry.eq_of_eq {a b : OpEntry} (h : a.eq b = true) (hzero : a.value.ZeroFree) :
    a = b := by
  simp only [OpEntry.eq, Bool.and_eq_true, beq_iff_eq] at h
  obtain ⟨⟨⟨⟨⟨hindex, htime⟩, hkind⟩, hprocess⟩, hf⟩, hvalue⟩ := h
  have hsame := Value.eq_of_eq hvalue hzero
  cases a
  cases b
  simp_all

/-- A recorded operation history. -/
structure History where
  entries : List OpEntry
  deriving DecidableEq

/-- The empty history. -/
def History.default : History := ⟨[]⟩

end Propsim.Interchange
