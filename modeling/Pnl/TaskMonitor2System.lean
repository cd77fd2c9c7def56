import Pnl.TaskMonitor2Module

/-!
# What happens to the task monitor

Between `monitor_init` and `monitor_exit` the sampling thread takes its turns, memory reclaim calls
the shrinker, and users read and write the two files, in any order. Each event is one complete call,
or a byte that somebody else writes behind the block of `all_tasks`.
-/

namespace Pnl.TaskMonitor2

inductive Event where
  /-- What `thread` does in `monitor_fn` after its timeout. -/
  | turn (thread : Addr) (answers : Answers)
  | sysfsStore (buf : List UInt8) (thread : Addr)
  | myShrinkScan (gfpMask : UInt32)
  | myShrinkCount
  | sysfsShow (buf : List UInt8)
  | debugfsTaskMonitorShow
  | otherStore (offset : Nat)

/-- `ex5_crash_tester` is left out, which nothing reads. -/
def happen (md : Module) : Event → Module
  | .turn _ answers => { md with state := (sampleMonitors answers md.state md.state.tasks null).1 }
  | .sysfsStore buf thread => (sysfsStore md buf thread).1
  | .myShrinkScan gfpMask => { md with state := (myShrinkScan md.state gfpMask).1 }
  | .myShrinkCount => { md with state := (myShrinkCount md.state).1 }
  | .sysfsShow buf => { md with state := (sysfsShow md.state buf).1 }
  | .debugfsTaskMonitorShow => { md with state := (debugfsTaskMonitorShow md.state).1 }
  | .otherStore offset => { md with state := md.state.otherStore offset }

end Pnl.TaskMonitor2
