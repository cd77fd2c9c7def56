import Mathlib.Data.Nat.Notation

/-!
# What a task monitor samples

The times that `task_cputime` gives of a task, which the task monitors of `TP_06` and `TP_07` read
under `task_lock` while the task is alive.
-/

namespace Pnl.TaskMonitor

/-- The number of a `struct pid`. -/
abbrev Pid := Nat

def esrch : Int := 3

structure TaskSample where
  utime : UInt64
  stime : UInt64
deriving DecidableEq, Repr

structure Task where
  alive : Bool
  cputime : TaskSample
deriving DecidableEq, Repr

end Pnl.TaskMonitor
