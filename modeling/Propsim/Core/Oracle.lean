import Propsim.Foundation.Duration
import Propsim.Interchange.Operation

/-!
# Run outputs, oracles and verdicts

The part of the plugin contract that an oracle sees: `executor.rs` (the output of a run),
`needs.rs`, `oracle.rs` and the erased trace of `world.rs`. The text of an anomaly or witness is
kept as the data that its format string renders.
-/

set_option autoImplicit false
set_option relaxedAutoImplicit false

namespace Propsim.Core

open Foundation Interchange

/-- An eight-byte seed for the deterministic executor. -/
structure Seed where
  val : UInt64
  deriving DecidableEq, Repr

/-- A run event that a bounded-liveness deadline can be anchored to. -/
inductive Event
  | networkHealed
  | nodeRejoined
  | custom (name : String)
  deriving DecidableEq

/-- The sequence of world snapshots of one run, with the history shared by every frame. -/
structure WorldTrace (S : Type) where
  frames : List (Duration × List S)
  history : History

/-- An empty trace. -/
def WorldTrace.new (S : Type) : WorldTrace S := ⟨[], History.default⟩

/-- The node state of a type-erased trace. -/
structure ErasedState where

/-- Backend-specific output files: logical names with paths. -/
structure Artifacts where
  files : List (String × String)

/-- An empty artifact set. -/
def Artifacts.new : Artifacts := ⟨[]⟩

/-- What an executor can produce. -/
structure Produces where
  worldSnapshots : Bool
  history : Bool
  virtualTime : Bool
  seedReplayable : Bool
  deriving DecidableEq

/-- The deterministic in-process executor's capabilities. -/
def Produces.deterministic : Produces := ⟨true, true, true, true⟩

/-- A real-cluster executor's capabilities. -/
def Produces.realCluster : Produces := ⟨false, true, false, false⟩

/-- What an oracle needs to render a verdict. -/
inductive Needs
  | world
  | history
  deriving DecidableEq

/-- The normalized output of a run. -/
structure RunOutput where
  history : History
  worldTrace : Option (WorldTrace ErasedState)
  artifacts : Artifacts
  seed : Seed

/-- A rendered text: a plain one, or a format string applied to its arguments. -/
inductive Text
  | plain (text : String)
  /-- `` `{}` false at t={:?} `` -/
  | falseAt (property : String) (t : Duration)
  /-- `` property `{}` (always) violated at virtual t={:?} `` -/
  | violatedAt (property : String) (t : Duration)
  /-- `` `{}` not satisfied within {:?} of {:?} (virtual time) `` -/
  | notWithin (property : String) (deadline : Duration) (after : Option Event)
  deriving DecidableEq

/-- A named anomaly with an optional detail. -/
structure Anomaly where
  kind : String
  detail : Option Text
  deriving DecidableEq

/-- An anomaly with just a kind. -/
def Anomaly.new (kind : String) : Anomaly := ⟨kind, none⟩

/-- An anomaly with a kind and a detail. -/
def Anomaly.withDetail (kind : String) (detail : Text) : Anomaly := ⟨kind, some detail⟩

/-- Evidence that explains a failing verdict. -/
inductive Witness
  | text (text : Text)
  | artifact (path : String)
  deriving DecidableEq

/-- The normalized verdict of an oracle. -/
structure Verdict where
  isValid : Bool
  anomalies : List Anomaly
  witness : Option Witness
  deriving DecidableEq

/-- A clean pass. -/
def Verdict.valid : Verdict := ⟨true, [], none⟩

/-- A failure carrying anomalies. -/
def Verdict.invalid (anomalies : List Anomaly) : Verdict := ⟨false, anomalies, none⟩

/-- Attaches a witness. -/
def Verdict.withWitness (verdict : Verdict) (witness : Witness) : Verdict :=
  { verdict with witness := some witness }

@[simp] theorem Verdict.isValid_valid : Verdict.valid.isValid = true := rfl

@[simp] theorem Verdict.isValid_invalid (anomalies : List Anomaly) :
    (Verdict.invalid anomalies).isValid = false := rfl

@[simp] theorem Verdict.isValid_withWitness (verdict : Verdict) (witness : Witness) :
    (verdict.withWitness witness).isValid = verdict.isValid := rfl

/-- An oracle: a name, what it needs, and its decision on a run output. -/
structure Oracle where
  name : String
  needs : Needs
  check : RunOutput → Verdict

end Propsim.Core
