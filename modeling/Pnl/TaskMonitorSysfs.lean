import Pnl.TaskMonitor2Module

/-!
# The task monitor's first sysfs file

`TP_06/EXO-05` has the `sysfs_store` that `TP_07/EXO-05` later took over, in a module without lists
of monitors and samples: all the file switches is one thread.
-/

namespace Pnl.TaskMonitorSysfs

open Kthreads TaskMonitor2

/-- The static variables that `sysfs_store` reads and writes, and the threads of the module. -/
structure Module where
  monitorThread : Addr := null
  run : Bool := false
  myString : List UInt8 := List.replicate 256 0
  threads : Threads := {}

def Module.kthreadRun (md : Module) (thread : Addr) : Module :=
  { md with monitorThread := thread, threads := md.threads.run thread }

def Module.kthreadStop (md : Module) : Module :=
  { md with threads := md.threads.stop md.monitorThread }

/-- `sysfs_store`, where `thread` is what `kthread_run` returns if it is called. -/
def sysfsStore (md : Module) (buf : List UInt8) (thread : Addr) : Module × Nat :=
  let md := { md with myString := strncpy md.myString buf 255 }
  let res := strlen md.myString
  let md :=
    if strncmp 4 stopCommand md.myString = 0 then
      if md.run then { md.kthreadStop with run := false } else md
    else md
  let md :=
    if strncmp 4 startCommand md.myString = 0 then
      if md.run then md else { md.kthreadRun thread with run := true }
    else md
  (md, res)

end Pnl.TaskMonitorSysfs
