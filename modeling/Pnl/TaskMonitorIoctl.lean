import Mathlib.Data.Finset.Insert
import Mathlib.Data.Finset.Erase
import Mathlib.Logic.Function.Basic
import Pnl.Lib.Bytes
import Pnl.Lib.Kthreads
import Pnl.Lib.Sleepers
import Pnl.TaskMonitor

/-!
# The ioctl task monitor

The driver of `TP_06/EXO-06` monitors one process with one kernel thread, and a user switches both
through `etx_ioctl`. An ioctl is the command with what user memory and the kernel answer while it
runs. The model keeps what the driver owns (its thread, its `task_monitor`, its `pid` reference)
and records a misuse of it in `faults` rather than stopping there: the next ioctl runs on what is
left.
-/

namespace Pnl.TaskMonitorIoctl

open Bytes Kthreads Sleepers TaskMonitor

abbrev Addr := Nat

def null : Addr := 0

inductive Fault where
  | stopOfStopped
  | freeOfFreed
  | putOfUnheld
  | readOfFreed
  | nullDeref
  | strayStore
deriving DecidableEq, Repr

/-- The driver's variables, and what the kernel keeps for it. -/
structure Driver where
  target : UInt16
  tm : Addr := null
  monitorThread : Addr := null
  value : Int32 := 0
  /-- The bytes of the module around the literals that `string` and `info` point into. -/
  mem : List UInt8
  string : Nat
  info : Nat
  tsInfo : TaskSample := ⟨0, 0⟩
  run : Bool := false
  /-- The allocated `task_monitor`s, and `pid` in each of them. -/
  tms : Finset Addr := ∅
  pidOf : Addr → Pid := fun _ => 0
  pidRefs : Pid → Nat := fun _ => 0
  alive : Finset Addr := ∅
  faults : List Fault := []

def Driver.fault (d : Driver) (f : Fault) : Driver := { d with faults := f :: d.faults }

/-! ### The kernel's services -/

def Driver.kthreadStop (d : Driver) : Driver :=
  if d.monitorThread ∈ d.alive then { d with alive := d.alive.erase d.monitorThread }
  else d.fault .stopOfStopped

def Driver.kthreadRun (d : Driver) (thread : Addr) : Driver :=
  { d with
    monitorThread := thread
    alive := if isErr thread then d.alive else insert thread d.alive }

def Driver.readTm (d : Driver) : Driver := if d.tm ∈ d.tms then d else d.fault .readOfFreed

def Driver.putPid (d : Driver) : Driver :=
  let d := d.readTm
  let pid := d.pidOf d.tm
  if d.pidRefs pid = 0 then d.fault .putOfUnheld
  else { d with pidRefs := Function.update d.pidRefs pid (d.pidRefs pid - 1) }

def Driver.kfree (d : Driver) : Driver :=
  if d.tm ∈ d.tms then { d with tms := d.tms.erase d.tm } else d.fault .freeOfFreed

/-- The storage of the two literals `"toto"`. -/
def Driver.owns (d : Driver) (off : Nat) : Bool :=
  decide (d.string ≤ off ∧ off < d.string + 5 ∨ d.info ≤ off ∧ off < d.info + 5)

def Driver.store (d : Driver) (off : Nat) (bytes : List UInt8) : Driver :=
  let mem := d.mem.take off ++ bytes ++ d.mem.drop (off + bytes.length)
  let d := if (List.range bytes.length).all fun i => d.owns (off + i) then d
    else d.fault .strayStore
  { d with mem := mem }

def Driver.cstring (d : Driver) (off : Nat) : List UInt8 := (d.mem.drop off).takeWhile (· ≠ 0)

/-- `copy_from_user` of `n` bytes where the user can be read for `arg`: what cannot be copied is
zeroed, and counted. -/
def copyFromUser (arg : List UInt8) (n : Nat) : List UInt8 × Nat :=
  (arg.take n ++ List.replicate (n - arg.length) 0, n - arg.length)

def copyToUser (src : List UInt8) (room : Nat) : List UInt8 × Nat :=
  (src.take room, src.length - room)

def snprintf (size : Nat) (text : List UInt8) : List UInt8 := text.take (size - 1) ++ [0]

def sampleText (ts : TaskSample) : List UInt8 :=
  ascii ['u', 's', 'r', ' '] ++ decimal ts.utime.toNat ++ ascii [' ', 's', 'y', 's', ' ']
    ++ decimal ts.stime.toNat ++ ascii ['\n']

/-! ### The driver -/

def getSample (task : Option Task) (sample : TaskSample) : TaskSample × Bool :=
  match task with
  | none => (sample, false)
  | some task => if task.alive then (task.cputime, true) else (sample, false)

/-- `print_sample`: the sample it prints, or that the process is dead. `stack` is what the
uninitialised `ts` holds. It does not return when it dereferences `NULL`. -/
def printSample (d : Driver) (task : Option Task) (stack : TaskSample) :
    Driver × Option (Option TaskSample) :=
  if d.tm = null then (d.fault .nullDeref, none) else
  let d := d.readTm
  let (ts, alive) := getSample task stack
  (d, some (if alive then some ts else none))

/-- `max(HZ/frequency, 1U)`. -/
def monitorTimeout (hz frequency : UInt32) : Option UInt32 :=
  (div hz frequency).map fun period => umax period 1

/-- A turn of `monitor_fn`. -/
def monitorFn (hz : UInt32) : Sleeper Driver → Turn UInt32 (Option Task × TaskSample) → Sleeper Driver :=
  Sleeper.turn (monitorTimeout hz) fun d (task, stack) =>
    let (d, printed) := printSample d task stack
    (d, printed.isSome)

/-- `monitor_pid`, for what `find_get_pid` and `kmalloc` return. It does not return when it
dereferences `NULL`. -/
def monitorPid (d : Driver) (pid : Option Pid) (kmalloc : Addr) : Driver × Option Int :=
  match pid with
  | none => (d, some (-esrch))
  | some p =>
      let d := { d with pidRefs := Function.update d.pidRefs p (d.pidRefs p + 1), tm := kmalloc }
      if kmalloc = null then (d.fault .nullDeref, none) else
      ({ d with tms := insert kmalloc d.tms, pidOf := Function.update d.pidOf kmalloc p }, some 0)

/-- An ioctl with its argument: the bytes that can be read there, or the room there is to write. -/
inductive Ioctl where
  | wrValue (arg : List UInt8)
  | rdValue (room : Nat)
  | hello (room : Nat)
  | who (arg : List UInt8)
  /-- `stack` is what the uninitialised `ts` holds. -/
  | getSample (task : Option Task) (stack : TaskSample) (room : Nat)
  | getSampleStruct (task : Option Task) (room : Nat)
  | taskmonStop
  | taskmonStart (thread : Addr)
  | taskmonSetPid (arg : List UInt8) (pid : Option Pid) (kmalloc thread : Addr)
  | other

def int32Of (bytes : List UInt8) : Int32 := (UInt32.ofNat (leNat bytes)).toInt32

/-- `etx_ioctl`: its result and the bytes it delivers, or `none` when it dereferences `NULL`. -/
def etxIoctl (d : Driver) : Ioctl → Driver × Option (Int × List UInt8)
  | .wrValue arg =>
      let (bytes, res) := copyFromUser arg 4
      ({ d with value := int32Of bytes }, some (res, []))
  | .rdValue room =>
      let (out, res) := copyToUser (leBytes 4 d.value.toUInt32.toNat) room
      (d, some (res, out))
  | .hello room =>
      let (out, res) := copyToUser (d.cstring d.string) room
      (d, some (res, out))
  | .who arg =>
      -- `sizeof(string)` is the size of the pointer
      let (bytes, res) := copyFromUser arg 8
      (d.store d.string bytes, some (res, []))
  | .getSample task stack room =>
      if d.tm = null then (d.fault .nullDeref, none) else
      let d := d.readTm
      let (ts, _) := getSample task stack
      let d := d.store d.info (snprintf 256 (sampleText ts))
      let (out, res) := copyToUser (d.cstring d.info) room
      (d, some (res, out))
  | .getSampleStruct task room =>
      if d.tm = null then (d.fault .nullDeref, none) else
      let d := d.readTm
      let (tsInfo, _) := getSample task d.tsInfo
      let d := { d with tsInfo := tsInfo }
      let (out, res) :=
        copyToUser (leBytes 8 d.tsInfo.utime.toNat ++ leBytes 8 d.tsInfo.stime.toNat) room
      (d, some (res, out))
  | .taskmonStop =>
      if d.run then ({ d.kthreadStop with run := false }, some (0, [])) else (d, some (0, []))
  | .taskmonStart thread =>
      if d.run then (d, some (0, [])) else ({ d.kthreadRun thread with run := true }, some (0, []))
  | .taskmonSetPid arg pid kmalloc thread =>
      let d := d.kthreadStop
      if d.tm = null then (d.fault .nullDeref, none) else
      let d := d.putPid.kfree
      let (bytes, res) := copyFromUser arg 4
      let d := { d with value := int32Of bytes }
      match monitorPid d pid kmalloc with
      | (d, none) => (d, none)
      | (d, some err) =>
          if err ≠ 0 then
            -- `tm` is still the one freed above
            (d.putPid.kfree, some (res, []))
          else
            let d := { d with target := d.value.toUInt32.toUInt16 }
            -- `run` is left as it was
            (d.kthreadRun thread, some (res, []))
  | .other => (d, some (0, []))

def step (d : Driver) (call : Ioctl) : Driver := (etxIoctl d call).1

def monitorInit (d : Driver) (pid : Option Pid) (kmalloc thread : Addr) : Driver × Option Int :=
  match monitorPid d pid kmalloc with
  | (d, none) => (d, none)
  | (d, some err) =>
      if err ≠ 0 then (d, some err) else
      let d := d.kthreadRun thread
      if isErr thread then (d.putPid.kfree, some (ptrErr thread)) else
      ({ d with run := true }, some 0)

def monitorExit (d : Driver) : Driver :=
  let d := if d.monitorThread ≠ null then d.kthreadStop else d
  if d.tm = null then d.fault .nullDeref else d.putPid.kfree

/-- A module as it is loaded: `target` is a parameter, and both literals hold `"toto"`. -/
structure Driver.Loaded (d : Driver) : Prop where
  eq : d = { target := d.target, mem := d.mem, string := d.string, info := d.info }
  string_toto : slice d.mem d.string 5 = ascii ['t', 'o', 't', 'o'] ++ [0]
  info_toto : slice d.mem d.info 5 = ascii ['t', 'o', 't', 'o'] ++ [0]

end Pnl.TaskMonitorIoctl
