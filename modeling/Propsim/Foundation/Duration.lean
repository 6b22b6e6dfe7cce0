import Mathlib.Algebra.Group.Nat.Defs
import Mathlib.Order.Lattice
import Mathlib.Order.Nat

/-!
# Bounded durations

A duration is a number of nanoseconds of at most `2^64 - 1` seconds and `999999999` nanoseconds.
Addition is checked: it has no value when the sum passes that bound.
-/

set_option autoImplicit false
set_option relaxedAutoImplicit false

namespace Propsim.Foundation

/-- The largest representable number of nanoseconds. -/
def maxNanos : ℕ := (2 ^ 64 - 1) * 1000000000 + 999999999

/-- A span of time in nanoseconds, within the representable range. -/
@[ext]
structure Duration where
  nanos : ℕ
  le_max : nanos ≤ maxNanos
  deriving DecidableEq

namespace Duration

theorem nanos_injective : Function.Injective Duration.nanos := fun _ _ h ↦ Duration.ext h

instance : LinearOrder Duration := LinearOrder.lift' Duration.nanos nanos_injective

theorem le_iff {a b : Duration} : a ≤ b ↔ a.nanos ≤ b.nanos := Iff.rfl

theorem lt_iff {a b : Duration} : a < b ↔ a.nanos < b.nanos := Iff.rfl

/-- No time. -/
def zero : Duration := ⟨0, Nat.zero_le _⟩

theorem zero_le (d : Duration) : zero ≤ d := Nat.zero_le d.nanos

/-- The largest duration. -/
def maxValue : Duration := ⟨maxNanos, Nat.le_refl _⟩

/-- A whole number of milliseconds. -/
def fromMillis (millis : UInt64) : Duration where
  nanos := millis.toNat * 1000000
  le_max := by
    have h := millis.toNat_lt
    simp only [maxNanos]
    omega

theorem nanos_fromMillis (millis : UInt64) :
    (fromMillis millis).nanos = millis.toNat * 1000000 := rfl

/-- A whole number of seconds. -/
def fromSecs (secs : UInt64) : Duration where
  nanos := secs.toNat * 1000000000
  le_max := by
    have h := secs.toNat_lt
    simp only [maxNanos]
    omega

theorem nanos_fromSecs (secs : UInt64) : (fromSecs secs).nanos = secs.toNat * 1000000000 := rfl

/-- The sum, when it is representable. The second summand, often a constant, comes first, so that
the sum does not unfold into successors. -/
def checkedAdd (a b : Duration) : Option Duration :=
  if h : b.nanos + a.nanos ≤ maxNanos then some ⟨b.nanos + a.nanos, h⟩ else none

theorem checkedAdd_eq_some_iff {a b c : Duration} :
    checkedAdd a b = some c ↔ c.nanos = a.nanos + b.nanos := by
  unfold checkedAdd
  split_ifs with h
  · simp only [Option.some.injEq, Duration.ext_iff, Nat.add_comm a.nanos]
    exact eq_comm
  · simp only [false_iff, Nat.add_comm a.nanos]
    intro hsum
    exact h (hsum ▸ c.le_max)

end Duration

end Propsim.Foundation
