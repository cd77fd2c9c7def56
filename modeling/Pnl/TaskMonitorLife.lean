import Mathlib.Data.Finset.Insert
import Mathlib.Data.Finset.Erase
import Mathlib.Logic.Function.Basic
import Pnl.TaskMonitorSysfs

/-!
# The life of the task monitor with a file

`TP_06/EXO-05` from `monitor_init` to `monitor_exit`. Its thread and whoever reads the file look at
the one `task_monitor`, and whoever writes to the file switches the thread. `monitor_exit` frees the
`task_monitor` before it takes the file away, so it comes in two parts here. A misuse is recorded in
`faults`.
-/

namespace Pnl.TaskMonitorSysfs

open Kthreads TaskMonitor2
open TaskMonitor (Pid TaskSample esrch)

/-- A line in the kernel's log. A `pid` is printed with `%hd`. -/
inductive Line where
  | cantFind (pid : Pid)
  | notFound (pid : UInt16)
  | dead (pid : Int16)
  | sample (pid : Int16) (ts : TaskSample)
deriving DecidableEq, Repr

inductive Fault where
  | readOfFreed
  | freeOfFreed
  | putOfUnheld
  | nullDeref
deriving DecidableEq, Repr

inductive Phase where
  | loaded
  /-- In `monitor_exit`, with the file still there. -/
  | exiting
  | gone
deriving DecidableEq, Repr

structure Life where
  module : Module := {}
  tm : Addr := null
  /-- The allocated `task_monitor`s, and `pid` in each of them. -/
  tms : Finset Addr := ∅
  pidOf : Addr → Pid := fun _ => 0
  pidRefs : Pid → Nat := fun _ => 0
  /-- `directory_monitor` with the file in it. -/
  tmObj : Bool := false
  phase : Phase := .loaded
  log : List Line := []
  faults : List Fault := []

def Life.fault (s : Life) (f : Fault) : Life := { s with faults := f :: s.faults }

def Life.print (s : Life) (line : Line) : Life := { s with log := s.log ++ [line] }

def Life.readTm (s : Life) : Life := if s.tm ∈ s.tms then s else s.fault .readOfFreed

def Life.putPid (s : Life) : Life :=
  let s := s.readTm
  let pid := s.pidOf s.tm
  if s.pidRefs pid = 0 then s.fault .putOfUnheld
  else { s with pidRefs := Function.update s.pidRefs pid (s.pidRefs pid - 1) }

def Life.kfree (s : Life) : Life :=
  if s.tm ∈ s.tms then { s with tms := s.tms.erase s.tm } else s.fault .freeOfFreed

/-! ### Samples -/

/-- `get_sample`, for the task that `get_pid_task` finds. -/
def Life.getSample (s : Life) (task : Option Task) : Life × Option TaskSample :=
  let s := s.readTm
  match task with
  | none => (s.readTm.print (.cantFind (s.pidOf s.tm)), none)
  | some task => (s, if task.alive then some task.cputime else none)

def Life.printSample (s : Life) (task : Option Task) : Life :=
  let s := s.readTm
  let pid := Int16.ofNat (s.pidOf s.tm)
  let (s, sample) := s.getSample task
  match sample with
  | none => s.print (.dead pid)
  | some ts => s.print (.sample pid ts)

/-- `sysfs_show`, which prints where it should write to the buffer. -/
def Life.sysfsShow (s : Life) (task : Option Task) : Life × Nat := (s.printSample task, 0)

/-! ### Loading and unloading -/

/-- What the kernel answers while `monitor_init` runs. -/
structure InitEnv where
  target : UInt16
  pid : Option Pid
  kmalloc : Addr
  thread : Addr
  sysfsCreateFile : Int32

def Life.monitorPid (s : Life) (env : InitEnv) : Life × Option Int :=
  match env.pid with
  | none => (s.print (.notFound env.target), some (-esrch))
  | some p =>
      let s := { s with
        pidRefs := Function.update s.pidRefs p (s.pidRefs p + 1)
        tm := env.kmalloc }
      if env.kmalloc = null then (s.fault .nullDeref, none) else
      ({ s with
        tms := insert env.kmalloc s.tms
        pidOf := Function.update s.pidOf env.kmalloc p }, some 0)

def monitorInit (s : Life) (env : InitEnv) : Life × Option Int :=
  match s.monitorPid env with
  | (s, none) => (s, none)
  | (s, some err) =>
      if err ≠ 0 then (s, some err) else
      let s := { s with module := s.module.kthreadRun env.thread }
      if isErr env.thread then (s.putPid.kfree, some (ptrErr env.thread)) else
      let s := { s with tmObj := true }
      -- `err` is still 0 on the way to `r_sysfs`, and the thread runs on
      if env.sysfsCreateFile ≠ 0 then ({ s with tmObj := false }.putPid.kfree, some 0) else
      ({ s with module := { s.module with run := true } }, some 0)

/-- `monitor_exit` up to `kfree`. -/
def Life.stopAndFree (s : Life) : Life :=
  let s := if s.module.run && s.module.monitorThread ≠ null then
      { s with module := s.module.kthreadStop } else s
  { s.putPid.kfree with phase := .exiting }

/-- The rest of `monitor_exit`. The file went with its directory; `sysfs_remove_file` looks for it in
another one. -/
def Life.removeFile (s : Life) : Life :=
  { s with tmObj := false, module := { s.module with run := false }, phase := .gone }

def monitorExit (s : Life) : Life := s.stopAndFree.removeFile

/-! ### What happens to a loaded module -/

inductive Action where
  /-- `thread` wakes up and prints a sample. -/
  | turn (thread : Addr) (task : Option Task)
  | sysfsShow (task : Option Task)
  /-- `thread` is what `kthread_run` returns if it is called. -/
  | sysfsStore (buf : List UInt8) (thread : Addr)
  | stopAndFree
  | removeFile

def step (s : Life) : Action → Life
  | .turn _ task => s.printSample task
  | .sysfsShow task => (s.sysfsShow task).1
  | .sysfsStore buf thread => { s with module := (sysfsStore s.module buf thread).1 }
  | .stopAndFree => s.stopAndFree
  | .removeFile => s.removeFile

/-- Only a live thread wakes up, only a file that is there is read and written, and the module is
unloaded once. -/
def Possible (s : Life) : Action → Prop
  | .turn thread _ => thread ∈ s.module.threads.alive
  | .sysfsShow _ => s.tmObj = true
  | .sysfsStore _ thread => s.tmObj = true ∧ thread ≠ null
  | .stopAndFree => s.phase = .loaded
  | .removeFile => s.phase = .exiting

instance (s : Life) : (action : Action) → Decidable (Possible s action)
  | .turn _ _ => inferInstanceAs (Decidable (_ ∈ _))
  | .sysfsShow _ => inferInstanceAs (Decidable (_ = _))
  | .sysfsStore _ _ => inferInstanceAs (Decidable (_ ∧ _))
  | .stopAndFree | .removeFile => inferInstanceAs (Decidable (_ = _))

end Pnl.TaskMonitorSysfs
