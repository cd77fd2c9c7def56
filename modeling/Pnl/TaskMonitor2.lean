import Pnl.Lib.Bytes
import Pnl.Lib.Krefs
import Pnl.Lib.Sleepers
import Pnl.TaskMonitor

/-!
# The task monitor with a slab cache

`taskmonitor2.c` of `TP_07/EXO-05` keeps a list of monitors and for each monitor a list of samples.
A sampling thread appends samples, the kernel's memory reclaim drops them through a shrinker, and two
files show them. Monitors and samples are counted objects, released by whoever drops the last
reference.

`list_*` and `kref_*` do what the kernel documents. A list is the sequence of its elements, and the
operations touch what the C code reads or writes, so that an access to a freed object leaves a fault
in its pool.

Two things lie where they should not. `task_sample_release` decrements a counter that no monitor has:
in a slab of samples it is half of the `list.prev` of the next object. And the head of the list of
monitors is behind the block that was allocated for it. The model keeps the sequences apart from that
and counts what goes wrong: a link that was off and was followed, a freed sample that was written to,
a head in memory that was freed or that somebody else wrote to. From there on it goes on as if nothing
had happened, and says nothing about the code.
-/

namespace Pnl.TaskMonitor2

open Bytes Krefs Sleepers

abbrev Addr := Nat

def null : Addr := 0

def pageSize : Nat := 4096

def sizeofTaskSample : Nat := 40

def sizeofTaskMonitor : Nat := 80

/-- What `kmalloc(sizeof(all_tasks))` asks for: `all_tasks` is a pointer. -/
def sizeofAllTasks : Nat := 8

/-- Where `all_tasks->tm_head.tm_list` is, behind the mutex and the reference counter. -/
def offsetofTmHeadTmList : Nat := 48

def sizeofListHead : Nat := 16

/-- Where a sample has its `list.prev`. -/
def offsetofListPrev : Nat := 8

def offsetofNbSamples : Nat := 72

def gfpFs : UInt32 := 0x80

/-- `SHRINK_STOP`, which is `~0UL`. -/
def shrinkStop : UInt64 := 0xffffffffffffffff

/-- What a sample holds besides its link and its reference counter. -/
abbrev Times := TaskMonitor.TaskSample

abbrev Task := TaskMonitor.Task

/-- The module and its objects. `head m` is the list `tm->head.list` of monitor `m` from the oldest
sample on, `times t` what sample `t` holds. -/
structure State where
  tasks : List Addr
  monitors : Pool Addr
  head : Addr → List Addr
  /-- The number of the `struct pid` a monitor refers to. -/
  pid : Addr → Int32
  nbSamples : Addr → Int32
  samples : Pool Addr
  times : Addr → Times
  totalCreated : Int32 := 0
  totalDestroyed : Int32 := 0
  /-- The samples whose `list.prev` was decremented since it was written. -/
  bent : Finset Addr := ∅
  /-- How often a link that was off has been followed. -/
  wild : Nat := 0
  /-- How often a freed sample has been written to. -/
  freedWrites : Nat := 0
  /-- The head of `tasks` is in an object of somebody else that was freed, or somebody else has
  written there. -/
  headTaken : Bool := false

/-! ### Lists -/

def neighbours (l : List Addr) (a : Addr) : List Addr :=
  (l.zip l.tail).flatMap fun pair =>
    if pair.1 = a then [pair.2] else if pair.2 = a then [pair.1] else []

/-- What `list.next` of `a` leads to, or nothing for the head of the list. -/
def listNext (l : List Addr) (a : Addr) : Option Addr := (l.dropWhile (· ≠ a)).tail.head?

/-- The sample that gets the `list.prev` of `t` when `t` is deleted. -/
def State.nextSamples (s : State) (t : Addr) : Finset Addr :=
  ((s.tasks.filter fun m => t ∈ s.head m).flatMap fun m => (listNext (s.head m) t).toList).toFinset

/-- `t->list.prev` is read. -/
def State.followPrev (s : State) (t : Addr) : State :=
  { s with wild := s.wild + if t ∈ s.bent then 1 else 0 }

def State.bentAfter (s : State) (t : Addr) : Finset Addr :=
  if t ∈ s.bent then s.bent ∪ s.nextSamples t else s.bent \ s.nextSamples t

/-- `list_del(&t->list)`, which also writes to the neighbours of `t`. -/
def State.listDelSample (s : State) (t : Addr) : State :=
  let holders := s.tasks.filter fun m => t ∈ s.head m
  { s with
    monitors := s.monitors.touchAll holders
    samples := (s.samples.touch t).touchAll (holders.flatMap fun m => neighbours (s.head m) t)
    head := fun m => (s.head m).filter (· ≠ t)
    bent := s.bentAfter t
    wild := (s.followPrev t).wild }

/-- `list_add_tail(&ts->list, &(tm->head.list))`, which also writes to the last sample. -/
def State.listAddTailSample (s : State) (ts tm : Addr) : State :=
  { s with
    monitors := s.monitors.touch tm
    samples := (s.samples.touch ts).touchAll (s.head tm).getLast?.toList
    head := Function.update s.head tm (s.head tm ++ [ts])
    bent := s.bent.erase ts }

def State.listDelMonitor (s : State) (m : Addr) : State :=
  { s with
    monitors := (s.monitors.touch m).touchAll (neighbours s.tasks m)
    tasks := s.tasks.filter (· ≠ m) }

def State.listAddTailMonitor (s : State) (m : Addr) : State :=
  { s with
    monitors := (s.monitors.touch m).touchAll s.tasks.getLast?.toList
    tasks := s.tasks ++ [m] }

/-! ### References -/

/-- Where `container_of(t, struct task_monitor, head)` points: `head` is at offset 24. -/
def containerOfHead (t : Addr) : Addr := (t + (2 ^ 64 - 24)) % 2 ^ 64

/-- The sample whose `list.prev` starts where `task_sample_release(t)` finds `tm->nb_samples`: the
object behind `t` in its slab, at `t + 40`. -/
def behind (t : Addr) : Addr := (containerOfHead t + (offsetofNbSamples - offsetofListPrev)) % 2 ^ 64

/-- `task_sample_release`, which takes the sample for the `head` of a monitor. -/
def State.taskSampleRelease (s : State) (t : Addr) : State :=
  let tm := containerOfHead t
  let s := s.listDelSample t
  let s := { s with
    samples := s.samples.free t
    totalDestroyed := s.totalDestroyed + 1 }
  -- `tm->nb_samples--`
  { s with
    nbSamples := Function.update s.nbSamples tm (s.nbSamples tm - 1)
    bent := insert (behind t) s.bent
    freedWrites := s.freedWrites + s.samples.freedHits (behind t) }

def State.taskMonitorRelease (s : State) (m : Addr) : State :=
  let s := s.listDelMonitor m
  { s with monitors := s.monitors.free m }

def State.krefPutSample (s : State) (t : Addr) : State :=
  let (samples, last) := s.samples.put t
  let s := { s with samples := samples }
  if last then s.taskSampleRelease t else s

def State.krefPutMonitor (s : State) (m : Addr) : State :=
  let (monitors, last) := s.monitors.put m
  let s := { s with monitors := monitors }
  if last then s.taskMonitorRelease m else s

def State.krefGetSample (s : State) (t : Addr) : State × Bool :=
  let (samples, got) := s.samples.getUnlessZero t
  ({ s with samples := samples }, got)

def State.krefGetMonitor (s : State) (m : Addr) : State × Bool :=
  let (monitors, got) := s.monitors.getUnlessZero m
  ({ s with monitors := monitors }, got)

def State.touchSample (s : State) (t : Addr) : State := { s with samples := s.samples.touch t }

def State.touchMonitor (s : State) (m : Addr) : State := { s with monitors := s.monitors.touch m }

/-! ### The shrinker -/

/-- The inner loop of `my_shrink_scan`. The safe iterator reads the next element before the body. -/
def scanSamples (s : State) : List Addr → (res : UInt64) → State × UInt64
  | [], res => (s, res)
  | t :: ts, res =>
      let s := s.touchSample t
      let s := s.krefPutSample t
      scanSamples s ts (res + 1)

def scanMonitors (s : State) : List Addr → (res : UInt64) → State × UInt64
  | [], res => (s, res)
  | m :: ms, res =>
      let s := s.touchMonitor m
      let (s, got) := s.krefGetMonitor m
      if got then
        let (s, res) := scanSamples s (s.head m) res
        let s := s.krefPutMonitor m
        scanMonitors s ms res
      else scanMonitors s ms res

def myShrinkScan (s : State) (gfpMask : UInt32) : State × UInt64 :=
  if gfpMask &&& gfpFs = 0 then (s, shrinkStop) else scanMonitors s s.tasks 0

/-- The loop of `my_shrink_count`, which reads the next element after the body. -/
def countMonitors (s : State) : List Addr → (res : UInt64) → State × UInt64
  | [], res => (s, res)
  | m :: ms, res =>
      let (s, got) := s.krefGetMonitor m
      if got then
        let res := res + (s.nbSamples m).toInt64.toUInt64
        let s := s.krefPutMonitor m
        countMonitors (s.touchMonitor m) ms res
      else countMonitors (s.touchMonitor m) ms res

def myShrinkCount (s : State) : State × UInt64 := countMonitors s s.tasks 0

/-! ### Sampling -/

/-- `get_sample`, which leaves the sample alone unless the task is alive, and tells which. -/
def getSample (task : Option Task) (sample : Times) : Times × Bool :=
  match task with
  | none => (sample, false)
  | some task => (if task.alive then task.cputime else sample, task.alive)

/-- `save_sample`, for what `kmem_cache_alloc` returns: an object with its contents, or nothing. -/
def saveSample (s : State) (tm : Addr) (alloc : Option (Addr × Times)) (task : Option Task) :
    State × Addr :=
  match alloc with
  | none => (s, null)
  | some (ts, contents) =>
      let s := { s with
        samples := (s.samples.alloc ts).init ts
        times := Function.update s.times ts contents }
      let (s, got) := s.krefGetSample ts
      if got then
        -- `get_sample` reads `tm->pid` and writes to `ts`
        let s := (s.touchMonitor tm).touchSample ts
        let s := { s with times := Function.update s.times ts (getSample task (s.times ts)).1 }
        let s := s.listAddTailSample ts tm
        let s := { s with
          totalCreated := s.totalCreated + 1
          nbSamples := Function.update s.nbSamples tm (s.nbSamples tm + 1) }
        (s.krefPutSample ts, ts)
      else (s, ts)

/-- What `kmem_cache_alloc` and `get_pid_task` answer for each monitor. -/
abbrev Answers := Addr → Option (Addr × Times) × Option Task

/-- The loop over the monitors in `monitor_fn`. -/
def sampleMonitors (answers : Answers) (s : State) :
    List Addr → (ex5CrashTester : Addr) → State × Addr
  | [], ex5CrashTester => (s, ex5CrashTester)
  | m :: ms, ex5CrashTester =>
      let (s, got) := s.krefGetMonitor m
      if got then
        let (s, ex5CrashTester) := saveSample s m (answers m).1 (answers m).2
        let s := s.krefPutMonitor m
        sampleMonitors answers (s.touchMonitor m) ms ex5CrashTester
      else sampleMonitors answers (s.touchMonitor m) ms ex5CrashTester

/-- `max(HZ/frequency/20, 1U/20)`. -/
def monitorTimeout (hz frequency : UInt32) : Option UInt32 :=
  (div hz frequency).map fun period => umax (period / 20) (1 / 20)

/-- A turn of `monitor_fn`. -/
def monitorFn (hz : UInt32) : Sleeper (State × Addr) → Turn UInt32 Answers → Sleeper (State × Addr) :=
  Sleeper.turn (monitorTimeout hz) fun (s, ex5CrashTester) answers =>
    (sampleMonitors answers s s.tasks ex5CrashTester, true)

/-! ### Showing the samples -/

/-- `"pid:%hu num:%d usr:%lu sys:%lu\n"`. -/
def sysfsLine (pid i : Int32) (ts : Times) : List UInt8 :=
  ascii ['p', 'i', 'd', ':'] ++ decimal pid.toUInt32.toUInt16.toNat
    ++ ascii [' ', 'n', 'u', 'm', ':'] ++ signedDecimal i.toInt
    ++ ascii [' ', 'u', 's', 'r', ':'] ++ decimal ts.utime.toNat
    ++ ascii [' ', 's', 'y', 's', ':'] ++ decimal ts.stime.toNat ++ ascii ['\n']

/-- `"pid:%hu num:%d : usr %lu sys %lu\n"`. -/
def debugfsLine (pid i : Int32) (ts : Times) : List UInt8 :=
  ascii ['p', 'i', 'd', ':'] ++ decimal pid.toUInt32.toUInt16.toNat
    ++ ascii [' ', 'n', 'u', 'm', ':'] ++ signedDecimal i.toInt
    ++ ascii [' ', ':', ' ', 'u', 's', 'r', ' '] ++ decimal ts.utime.toNat
    ++ ascii [' ', 's', 'y', 's', ' '] ++ decimal ts.stime.toNat ++ ascii ['\n']

def scnprintf (buf : List UInt8) (off size : Nat) (text : List UInt8) : List UInt8 :=
  let out := if size = 0 then [] else text.take (size - 1) ++ [0]
  buf.take off ++ out ++ buf.drop (off + out.length)

def strlen (buf : List UInt8) : Nat := (buf.takeWhile (· ≠ 0)).length

structure Output where
  buf : List UInt8
  count : Nat := 0
  i : Int32 := 0

/-- What a show function does with a sample; `none` when it returns at once. -/
abbrev Emit := (pid : Int32) → Times → Output → Option Output

def sysfsEmit : Emit := fun pid ts out =>
  if out.count = pageSize then none else
  let buf := scnprintf out.buf out.count (pageSize - out.count) (sysfsLine pid out.i ts)
  some { buf := buf, count := strlen buf, i := out.i + 1 }

/-- The body of `debugfs_task_monitor_show`, which appends to the sequence file. -/
def debugfsEmit : Emit := fun pid ts out =>
  some { out with buf := out.buf ++ debugfsLine pid out.i ts, i := out.i + 1 }

/-- The inner loop of both show functions, over the samples from the newest on. The iterator reads
`list.prev` after the body. The flag says that the function returned from the middle. -/
def showSamples (emit : Emit) (pid : Int32) (s : State) :
    List Addr → Output → State × Output × Bool
  | [], out => (s, out, false)
  | t :: ts, out =>
      let (s, got) := s.krefGetSample t
      if got then
        match emit pid (s.times t) out with
        | none => (s, out, true)
        | some out =>
            let s := s.krefPutSample t
            showSamples emit pid ((s.touchSample t).followPrev t) ts out
      else showSamples emit pid ((s.touchSample t).followPrev t) ts out

def showMonitors (emit : Emit) (s : State) : List Addr → Output → State × Output × Bool
  | [], out => (s, out, false)
  | m :: ms, out =>
      let (s, got) := s.krefGetMonitor m
      if got then
        match showSamples emit (s.pid m) s (s.head m).reverse out with
        | (s, out, true) => (s, out, true)
        | (s, out, false) =>
            let s := s.krefPutMonitor m
            showMonitors emit (s.touchMonitor m) ms out
      else showMonitors emit (s.touchMonitor m) ms out

/-- `sysfs_show`: the page and how much of it is text. -/
def sysfsShow (s : State) (buf : List UInt8) : State × List UInt8 × Nat :=
  match showMonitors sysfsEmit s s.tasks { buf := buf } with
  | (s, out, true) => (s, out.buf, out.count)
  | (s, out, false) => (s, out.buf, strlen out.buf)

/-- `debugfs_task_monitor_show`: the text it adds to the sequence file. -/
def debugfsTaskMonitorShow (s : State) : State × List UInt8 :=
  let (s, out, _) := showMonitors debugfsEmit s s.tasks { buf := [] }
  (s, out.buf)

/-! ### Loading and unloading -/

/-- `tm_allocator`, for what `kmalloc` and `find_get_pid` return. It does not return when it
dereferences `NULL`. -/
def tmAllocator (s : State) (kmalloc : Addr) (pid : Option Int32) : State × Option Int :=
  match pid with
  | none => (s, some 1)
  | some pid =>
      if kmalloc = null then (s, none) else
      let s := { s with
        monitors := (s.monitors.alloc kmalloc).init kmalloc
        pid := Function.update s.pid kmalloc pid
        head := Function.update s.head kmalloc []
        nbSamples := Function.update s.nbSamples kmalloc 0 }
      (s.listAddTailMonitor kmalloc, some 0)

def exitSamples (s : State) : List Addr → State
  | [] => s
  | t :: ts => exitSamples ((s.touchSample t).krefPutSample t) ts

/-- The outer deletion loop, from the last monitor on. -/
def exitMonitors (s : State) : List Addr → State
  | [] => s
  | m :: ms =>
      let s := s.touchMonitor m
      let s := exitSamples s (s.head m)
      -- `put_pid(p_tm->pid)`
      let s := s.touchMonitor m
      exitMonitors (s.krefPutMonitor m) ms

def monitorExit (s : State) : State := exitMonitors s s.tasks.reverse

/-! ### Runs of complete calls -/

inductive Call where
  | saveSample (tm : Addr) (alloc : Option (Addr × Times)) (task : Option Task)
  | myShrinkScan (gfpMask : UInt32)
  | myShrinkCount
  | sysfsShow (buf : List UInt8)
  | debugfsTaskMonitorShow

def step (s : State) : Call → State
  | .saveSample tm alloc task => (saveSample s tm alloc task).1
  | .myShrinkScan gfpMask => (myShrinkScan s gfpMask).1
  | .myShrinkCount => (myShrinkCount s).1
  | .sysfsShow buf => (sysfsShow s buf).1
  | .debugfsTaskMonitorShow => (debugfsTaskMonitorShow s).1

/-- A complete call, or a byte that somebody else writes `offset` bytes from the start of the block
that was allocated for `all_tasks`. -/
inductive Deed where
  | call (call : Call)
  | otherStore (offset : Nat)

/-- The byte is part of the head of the list of monitors. -/
def HitsHead (offset : Nat) : Prop :=
  offsetofTmHeadTmList ≤ offset ∧ offset < offsetofTmHeadTmList + sizeofListHead

instance (offset : Nat) : Decidable (HitsHead offset) := inferInstanceAs (Decidable (_ ∧ _))

def State.otherStore (s : State) (offset : Nat) : State :=
  { s with headTaken := s.headTaken || HitsHead offset }

def act (s : State) : Deed → State
  | .call call => step s call
  | .otherStore offset => s.otherStore offset

end Pnl.TaskMonitor2
