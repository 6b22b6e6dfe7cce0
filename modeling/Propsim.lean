import Propsim.Foundation.SequentialSpec
import Propsim.Foundation.LinearizationPoints
import Propsim.Foundation.MemoizedSearch
import Propsim.Foundation.Binary64
import Propsim.Foundation.Duration
import Propsim.Interchange.Operation
import Propsim.Interchange.Alternation
import Propsim.Interchange.WellFormed
import Propsim.Interchange.Nesting
import Propsim.Core.Oracle
import Propsim.Oracle.Linearizability
import Propsim.Oracle.Pairing
import Propsim.Oracle.SearchCorrectness
import Propsim.Oracle.PlainSearch
import Propsim.Oracle.Verdicts
import Propsim.Oracle.InTurn
import Propsim.Oracle.Points
import Propsim.Oracle.Indeterminate
import Propsim.Oracle.ProgramOrder
import Propsim.Foundation.PriorityQueue
import Propsim.Core.Node
import Propsim.Core.Behaviour
import Propsim.Core.Plan
import Propsim.Simulator.Rng
import Propsim.Simulator.Scheduler
import Propsim.Foundation.MessagePassing
import Propsim.Foundation.OrderedSet
import Propsim.Foundation.Fallible
import Propsim.Simulator.Lowering
import Propsim.Simulator.Run
import Propsim.Foundation.NumberText
import Propsim.Simulator.Properties
import Propsim.Simulator.Drive
import Propsim.Foundation.RadixText
import Propsim.Foundation.WordMixing
import Propsim.Simulator.Seeds
import Propsim.Simulator.DriveVerdicts
import Propsim.Simulator.Execution
import Propsim.Simulator.CoreSteps
import Propsim.Simulator.QueueOrder
import Propsim.Simulator.Reaching
import Propsim.Simulator.Halting
import Propsim.Simulator.NodeTable
import Propsim.Simulator.Overflow
import Propsim.Simulator.Recording
import Propsim.Simulator.Gating
import Propsim.Simulator.CrashWindow
import Propsim.Simulator.FaultEvents
import Propsim.Simulator.SwarmLiveness
import Propsim.Simulator.Replay
import Propsim.Simulator.Negotiation
import Propsim.Simulator.Network
import Propsim.Simulator.Moments
import Propsim.Simulator.Messages
import Propsim.Simulator.Export
import Propsim.Simulator.Guard
import Propsim.Simulator.Links
import Propsim.Simulator.Pacing
import Propsim.Simulator.Isolation
import Propsim.Simulator.Timers
import Propsim.Simulator.QueueView
import Propsim.Simulator.Issued
import Propsim.Simulator.StreamOrder
import Propsim.Simulator.Lockstep
import Propsim.Simulator.Rerun
import Propsim.Simulator.Truncation
import Propsim.Simulator.Termination
import Propsim.Simulator.Victims
import Propsim.Simulator.Worlds
import Propsim.Simulator.Frames
import Propsim.Simulator.Asynchrony
import Propsim.Simulator.Totality
import Propsim.Simulator.Gossip
import Propsim.Simulator.Instants
import Propsim.Simulator.Convergence
import Propsim.Simulator.Commitment
import Propsim.Simulator.ReplicatedKv
import Propsim.Simulator.ModelNode
import Propsim.Simulator.Shrinking
import Propsim.Simulator.DriveTotality
import Propsim.Simulator.Reproduction
import Propsim.Simulator.Deadlines
import Propsim.Oracle.Prefixes
import Propsim.Oracle.Undecoded
import Propsim.Oracle.Locality
import Propsim.Foundation.Utf8
import Propsim.Interchange.Writer
import Propsim.Interchange.EdnReader
import Propsim.Interchange.JsonReader
import Propsim.Interchange.Jepsen
import Propsim.Interchange.EdnGrammar
import Propsim.Interchange.EdnRoundTrip
import Propsim.Interchange.Reemission
import Propsim.Interchange.JsonGrammar
import Propsim.Interchange.JsonRoundTrip
import Propsim.Interchange.Wires
import Propsim.Interchange.IntegerLiterals
import Propsim.Interchange.Layouts
import Propsim.Interchange.JsonStrings
import Propsim.Foundation.JsonText
import Propsim.Interchange.JsonValidity
import Propsim.Interchange.EdnBoundaries
import Propsim.Interchange.JsonBoundaries
import Propsim.Interchange.Ingestion
import Propsim.Foundation.Loops
import Propsim.Interchange.EdnProgress
import Propsim.Interchange.JsonProgress
