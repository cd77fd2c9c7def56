import Pnl.Lib.Kthreads
import Pnl.Lib.Ledgers
import Pnl.TaskMonitor2

/-!
# Loading, switching and unloading the task monitor

`monitor_init` acquires what the module needs one after another, `sysfs_store` stops and starts the
sampling thread, and `monitor_exit` gives back what the module holds. The static variables are kept
as the code keeps them, and a ledger counts what was acquired and released; only the frees of
`task_monitor_release` are counted by the pool of the monitors.

Of the calls that can fail, those of `monitor_init` that the code checks have an answer here. The
others succeed.
-/

namespace Pnl.TaskMonitor2

open Kthreads Ledgers

inductive Resource where
  | allTasks
  | monitor
  /-- The reference that `find_get_pid` takes. -/
  | pid
  | cache
  | mempool
  | thread
  | debugfs
  | kobject
  | shrinker
deriving DecidableEq, Repr

structure Module where
  state : State
  monitorThread : Addr := null
  run : Bool := false
  myString : List UInt8 := List.replicate 256 0
  threads : Threads := {}
  ledger : Ledger Resource := {}

def Module.acquireAll (md : Module) (rs : List Resource) : Module :=
  { md with ledger := md.ledger.acquireAll rs }

def Module.releaseAll (md : Module) (rs : List Resource) : Module :=
  { md with ledger := md.ledger.releaseAll rs }

def Module.kthreadRun (md : Module) (thread : Addr) : Module :=
  { md with
    monitorThread := thread
    threads := md.threads.run thread
    ledger := md.ledger.acquireAll (if isErr thread then [] else [.thread]) }

def Module.kthreadStop (md : Module) : Module :=
  { md with
    threads := md.threads.stop md.monitorThread
    ledger := md.ledger.releaseAll [.thread] }

/-! ### Loading -/

/-- What the kernel answers while `monitor_init` runs. -/
structure InitEnv where
  kmalloc : Addr
  pid : Option Int32
  thread : Addr
  sysfsCreateFile : Int32
  /-- The block for `all_tasks` has a freed object behind it, where the head of the list goes. -/
  headFreed : Bool := false

/-- `tm_allocator`, with its entries in the ledger. -/
def Module.tmAllocator (md : Module) (env : InitEnv) : Module × Option Int :=
  let (state, ret) := TaskMonitor2.tmAllocator md.state env.kmalloc env.pid
  let md := { md with state := state }.acquireAll [.monitor]
  (if env.pid.isSome then md.acquireAll [.pid] else md.releaseAll [.monitor], ret)

/-- `monitor_init`; it returns nothing when it dereferences `NULL`. -/
def monitorInit (md : Module) (env : InitEnv) : Module × Option Int :=
  let s := { md.state with tasks := [], headTaken := env.headFreed }
  let md := { md with state := s }.acquireAll [.allTasks]
  match md.tmAllocator env with
  | (md, none) => (md, none)
  | (md, some ret) =>
      if ret ≠ 0 then (md, some 1) else
      let md := md.acquireAll [.cache, .mempool]
      let md := md.kthreadRun env.thread
      if isErr env.thread then (md, some (ptrErr env.thread)) else
      let md := md.acquireAll [.debugfs, .kobject]
      -- `err` is still 0 on the way to `r_sysfs`
      if env.sysfsCreateFile ≠ 0 then (md.releaseAll [.kobject], some 0) else
      ({ md with run := true }.acquireAll [.shrinker], some 0)

/-! ### The sysfs file -/

/-- `strncpy` of the string that `src` starts with. -/
def strncpy (dest src : List UInt8) (n : Nat) : List UInt8 :=
  let text := (src.takeWhile (· ≠ 0)).take n
  text ++ List.replicate (n - text.length) 0 ++ dest.drop n

/-- `strncmp(a, b, n)`, where both strings end in a zero byte. -/
def strncmp : (n : Nat) → (a b : List UInt8) → Int
  | 0, _, _ => 0
  | n + 1, a, b =>
      let x := a.headD 0
      let y := b.headD 0
      if x ≠ y then x.toNat - y.toNat
      else if x = 0 then 0 else strncmp n a.tail b.tail

def stopCommand : List UInt8 := Bytes.ascii ['s', 't', 'o', 'p']

def startCommand : List UInt8 := Bytes.ascii ['s', 't', 'a', 'r', 't']

/-- `sysfs_store`, where `thread` is what `kthread_run` returns if it is called. -/
def sysfsStore (md : Module) (buf : List UInt8) (thread : Addr) : Module × Nat :=
  let md := { md with myString := strncpy md.myString buf 255 }
  let res := strlen md.myString
  let md :=
    if strncmp 4 stopCommand md.myString = 0 then
      if md.run then { md.kthreadStop with run := false } else md
    else md
  let md :=
    if strncmp 4 startCommand md.myString = 0 then
      if md.run then md else { md.kthreadRun thread with run := true }
    else md
  (md, res)

/-! ### Unloading -/

/-- The outer deletion loop of `monitor_exit`, with its `put_pid`. -/
def Module.exitMonitors (md : Module) : List Addr → Module
  | [] => md
  | m :: ms =>
      let s := md.state.touchMonitor m
      let s := (exitSamples s (s.head m)).touchMonitor m
      let md := md.releaseAll [.pid]
      { md with state := s.krefPutMonitor m }.exitMonitors ms

def Module.monitorExit (md : Module) : Module :=
  let md := if md.monitorThread ≠ null then md.kthreadStop else md
  let md := md.exitMonitors md.state.tasks.reverse
  let md := md.releaseAll [.kobject]
  let md := { md with run := false }
  md.releaseAll [.shrinker, .mempool, .cache, .debugfs, .allTasks]

end Pnl.TaskMonitor2
