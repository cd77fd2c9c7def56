import Pnl.TaskMonitorIoctl

/-!
# The ioctl task monitor, access by access

An ioctl takes its locks nowhere, and the thread it stops, frees under and starts runs next to it.
Here one ioctl or the exit is under way at a time, and between any two of its accesses to what it
shares with the threads they may do any of theirs. `kthread_stop` is two steps, the request and the
return, and in between it waits for the thread to end.
-/

namespace Pnl.TaskMonitorIoctl

open Bytes Kthreads Sleepers TaskMonitor

/-! ### Threads -/

/-- Where a thread is in `monitor_fn`, with the `tm` that `print_sample` was called with. -/
inductive Pc where
  /-- At `kthread_should_stop`. -/
  | test
  | sleep
  /-- At the call of `print_sample`, which reads the variable `tm`. -/
  | call
  | pidNr (tm : Addr)
  | getPidTask (tm : Addr)
  /-- At the `pid_nr` of the message that there is no task. -/
  | notFound (tm : Addr)
  | print
  | ended
deriving DecidableEq, Repr

/-- What the kernel answers to a thread: the parameter `frequency`, what `schedule_timeout` returns,
and whether the pid has a task. -/
structure Answers where
  frequency : UInt32
  left : Int64
  found : Bool

/-! ### Accesses -/

/-- An access of the driver's own code to what it shares with its threads. -/
inductive Op where
  | kthreadStop
  | putPid
  | kfree
  | setValue (value : Int32)
  | findGetPid (pid : Pid)
  /-- `tm = kmalloc(...)`. The block holds something already. -/
  | kmalloc (tm : Addr) (pid : Pid)
  /-- `tm->pid = p`. -/
  | storePid (pid : Pid)
  | setTarget
  | kthreadRun (thread : Addr)
  | setRun (run : Bool)
  /-- An ioctl that only reads what it shares. -/
  | whole (call : Ioctl)

/-- What an access does to the driver; of `kthread_stop`, its return. -/
def Op.run (d : Driver) : Op → Driver
  | .kthreadStop => d.kthreadStop
  | .putPid => if d.tm = null then d.fault .nullDeref else d.putPid
  | .kfree => d.kfree
  | .setValue value => { d with value := value }
  | .findGetPid p => { d with pidRefs := Function.update d.pidRefs p (d.pidRefs p + 1) }
  | .kmalloc tm pid =>
      { d with
        tm := tm
        tms := if tm = null then d.tms else insert tm d.tms
        pidOf := Function.update d.pidOf tm pid }
  | .storePid p =>
      if d.tm = null then d.fault .nullDeref
      else { d with pidOf := Function.update d.pidOf d.tm p }
  | .setTarget => { d with target := d.value.toUInt32.toUInt16 }
  | .kthreadRun thread => d.kthreadRun thread
  | .setRun run => { d with run := run }
  | .whole call => step d call

/-- The accesses of an ioctl, for what fresh memory holds. -/
def Ioctl.ops (fresh : Pid) (d : Driver) : Ioctl → List Op
  | .taskmonStop => if d.run then [.kthreadStop, .setRun false] else []
  | .taskmonStart thread => if d.run then [] else [.kthreadRun thread, .setRun true]
  | .taskmonSetPid arg pid kmalloc thread =>
      [.kthreadStop, .putPid, .kfree, .setValue (int32Of (copyFromUser arg 4).1)]
        ++ match pid with
          | none => [.putPid, .kfree]
          | some p =>
              [.findGetPid p, .kmalloc kmalloc fresh, .storePid p, .setTarget, .kthreadRun thread]
  | call => [.whole call]

/-- The accesses of `monitor_exit`. -/
def exitOps (d : Driver) : List Op :=
  (if d.monitorThread ≠ null then [.kthreadStop] else []) ++ [.putPid, .kfree]

/-! ### The system -/

structure System where
  d : Driver
  pc : Addr → Pc := fun _ => .test
  /-- The threads that `kthread_stop` has asked to stop. -/
  stopping : Finset Addr := ∅
  /-- What is left of the call under way. -/
  ops : List Op := []
  calls : List Ioctl
  unload : Bool
  /-- How often a thread read a `task_monitor` that is freed, or whose pid nobody holds. -/
  badReads : Nat := 0

def System.goto (s : System) (thread : Addr) (pc : Pc) : System :=
  { s with pc := Function.update s.pc thread pc }

/-- A thread reads `tm->pid` and what it points to. -/
def System.read (s : System) (tm : Addr) : System :=
  if tm ∈ s.d.tms ∧ s.d.pidRefs (s.d.pidOf tm) ≠ 0 then s else { s with badReads := s.badReads + 1 }

/-- One access of a thread. Only `kthread_stop` wakes it before its time. -/
def System.turn (hz : UInt32) (s : System) (thread : Addr) (a : Answers) : System :=
  if thread ∉ s.d.alive then s else
  match s.pc thread with
  | .test => s.goto thread (if thread ∈ s.stopping then .ended else .sleep)
  | .sleep =>
      if monitorTimeout hz a.frequency = none then s.goto thread .ended
      else if a.left ≠ 0 ∧ thread ∈ s.stopping then s.goto thread .ended
      else s.goto thread .call
  | .call => s.goto thread (.pidNr s.d.tm)
  | .pidNr tm => (s.read tm).goto thread (.getPidTask tm)
  | .getPidTask tm => (s.read tm).goto thread (if a.found then .print else .notFound tm)
  | .notFound tm => (s.read tm).goto thread .print
  | .print => s.goto thread .test
  | .ended => s

/-- `kthread_stop`: the request, the wait, the return. Whoever ended before the request is not there
to be stopped. -/
def System.stop (s : System) (ops : List Op) : System :=
  let thread := s.d.monitorThread
  if thread ∈ s.stopping then
    if s.pc thread = .ended then
      { s with d := s.d.kthreadStop, stopping := s.stopping.erase thread, ops := ops }
    else s
  else if thread ∈ s.d.alive ∧ s.pc thread ≠ .ended then
    { s with stopping := insert thread s.stopping }
  else { s with d := s.d.fault .stopOfStopped, ops := ops }

/-- One access of the call under way, or the next call. -/
def System.own (fresh : Pid) (s : System) : System :=
  match s.ops with
  | .kthreadStop :: ops => s.stop ops
  | .kthreadRun thread :: ops =>
      let s := { s with d := s.d.kthreadRun thread, ops := ops }
      if isErr thread then s else s.goto thread .test
  | op :: ops => { s with d := op.run s.d, ops := ops }
  | [] =>
      match s.calls with
      | call :: calls => { s with ops := call.ops fresh s.d, calls := calls }
      | [] => if s.unload then { s with ops := exitOps s.d, unload := false } else s

inductive Event where
  | own
  | turn (thread : Addr) (answers : Answers)

def happens (hz : UInt32) (fresh : Pid) (s : System) : Event → System
  | .own => s.own fresh
  | .turn thread answers => s.turn hz thread answers

/-- The parameter `frequency` can be divided by. -/
def Event.Divides : Event → Prop
  | .own => True
  | .turn _ answers => answers.frequency ≠ 0

instance : (event : Event) → Decidable event.Divides
  | .own => inferInstanceAs (Decidable True)
  | .turn _ answers => inferInstanceAs (Decidable (answers.frequency ≠ 0))

/-- After `monitor_init`, with the calls to come. -/
def System.start (d : Driver) (calls : List Ioctl) (unload : Bool) : System :=
  { d := d, calls := calls, unload := unload }

/-- All calls have returned. -/
def System.Done (s : System) : Prop := s.ops = [] ∧ s.calls = [] ∧ s.unload = false

end Pnl.TaskMonitorIoctl
