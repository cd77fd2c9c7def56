import Mathlib.Algebra.Group.Pi.Basic
import Mathlib.Data.Set.Defs
import Mathlib.Logic.Function.Basic
import Pnl.Lib.Kthreads

/-!
# CPU statistics

`kcpustat.c` of `TP_05` samples the counters of the kernel from a thread and from time to time sums
up what it saved. A list is the sequence of its elements, and its operations read what the C code
reads, so that a use of a freed sample has no result. `print_stats` prints nothing: its result here
is what it computes.
-/

namespace Pnl.Kcpustat

open Kthreads

abbrev Addr := Nat

def enomem : Int32 := 12

/-- `struct kernel_cpustat`. -/
abbrev Cpustat (nrStats : Nat) := Fin nrStats → UInt64

variable {nrStats : Nat}

/-- The list `my_head`, and the samples that were allocated and not freed. -/
structure State (nrStats : Nat) where
  myHead : List Addr := []
  stat : Addr → Option (Cpustat nrStats) := fun _ => none
  freed : List Addr := []

def State.live (s : State nrStats) : Set Addr := {a | (s.stat a).isSome}

instance State.decidableLive (s : State nrStats) (a : Addr) : Decidable (a ∈ s.live) :=
  inferInstanceAs (Decidable ((s.stat a).isSome = true))

def State.touch (s : State nrStats) (as : List Addr) : Option Unit :=
  if ∀ a ∈ as, a ∈ s.live then some () else none

def State.write (s : State nrStats) (a : Addr) (c : Cpustat nrStats) : State nrStats :=
  { s with stat := Function.update s.stat a (some c) }

def State.kfree (s : State nrStats) (a : Addr) : Option (State nrStats) := do
  s.touch [a]
  return { s with stat := Function.update s.stat a none, freed := a :: s.freed }

def State.listAddTail (s : State nrStats) (a : Addr) : Option (State nrStats) := do
  s.touch (a :: s.myHead.getLast?.toList)
  return { s with myHead := s.myHead ++ [a] }

/-- `list_del`, which also writes to the neighbours of `a`. -/
def State.listDel (s : State nrStats) (a : Addr) : Option (State nrStats) := do
  let before := s.myHead.takeWhile (· ≠ a)
  let after := (s.myHead.dropWhile (· ≠ a)).tail
  s.touch (a :: before.getLast?.toList ++ after.head?.toList)
  return { s with myHead := before ++ after }

/-- `list_del_init(&my_head)`, which also writes to the first sample and to the last. -/
def State.listDelInit (s : State nrStats) : Option (State nrStats) := do
  s.touch (s.myHead.getLast?.toList ++ s.myHead.head?.toList)
  return { s with myHead := [] }

/-- The two loops of `save_stats`, where `kcpustatCpu i` are the structs that the inner loop reads
for the counter `i`, one a CPU. -/
def sumCpus (kcpustatCpu : Fin nrStats → List (Cpustat nrStats)) : Cpustat nrStats := fun i =>
  (kcpustatCpu i).foldl (fun sum k => sum + k i) 0

/-- `save_stats`, for what `kzalloc` returns. -/
def saveStats (s : State nrStats) (kzalloc : Option Addr)
    (kcpustatCpu : Fin nrStats → List (Cpustat nrStats)) : Option (State nrStats × Int32) :=
  match kzalloc with
  | none => some (s, -enomem)
  | some a => do
      let s ← (s.write a (sumCpus kcpustatCpu)).listAddTail a
      return (s, 0)

/-- The first loop of `print_stats`, over the samples from the last one on. -/
def makeNoncumulative (s : State nrStats) (first : Addr) : List Addr → Option (State nrStats)
  | [] => some s
  | k :: ks => do
      let stat ← s.stat k
      if k ≠ first then
        let prev ← ks.head?
        let prevStat ← s.stat prev
        makeNoncumulative (s.write k (stat - prevStat)) first ks
      else makeNoncumulative s first ks

/-- The second loop, with the iterator that reads the next element before the body. -/
def sumStats (s : State nrStats) :
    List Addr → (sum : Cpustat nrStats) → (nr : Int32) →
      Option (State nrStats × Cpustat nrStats × Int32)
  | [], sum, nr => some (s, sum, nr)
  | k :: ks, sum, nr => do
      let stat ← s.stat k
      s.touch ks.head?.toList
      let s ← s.listDel k
      let s ← s.kfree k
      sumStats s ks (sum + stat) (nr + 1)

/-- `print_stats`. On an empty list `first` is not a sample, and `kfree` gets a pointer that
`kzalloc` never returned. -/
def printStats (s : State nrStats) : Option (State nrStats × Cpustat nrStats × Int32) := do
  let first ← s.myHead.head?
  let s ← makeNoncumulative s first s.myHead.reverse
  let s ← s.listDel first
  let s ← s.kfree first
  let (s, sum, nr) ← sumStats s s.myHead (fun _ => 0) 0
  let s ← s.listDelInit
  return (s, sum, nr)

/-! ### The thread -/

/-- The constant `HZ` and the variables `interval` and `frequency`, which nothing assigns. -/
structure Params where
  hz : UInt32
  interval : UInt32
  frequency : UInt32

def Params.period (p : Params) : UInt32 := p.interval * (p.hz / p.frequency)

/-- What the kernel answers to an iteration of `my_kcpustat_fn`. -/
structure Iteration (nrStats : Nat) where
  kzalloc : Option Addr
  kcpustatCpu : Fin nrStats → List (Cpustat nrStats)

/-- The thread, with the sums that `print_stats` computed. -/
structure Thread (nrStats : Nat) where
  state : State nrStats := {}
  n : Int32 := 0
  sums : List (Cpustat nrStats) := []
  returned : Option Int32 := none

/-- An iteration of `my_kcpustat_fn`. Dividing by zero is undefined. -/
def Thread.iterate (p : Params) (t : Thread nrStats) (i : Iteration nrStats) :
    Option (Thread nrStats) :=
  if t.returned.isSome then some t else do
  let (s, err) ← saveStats t.state i.kzalloc i.kcpustatCpu
  if err ≠ 0 then return { t with state := s, returned := some err }
  let n := t.n + 1
  if p.frequency = 0 ∨ p.period = 0 then none else
  if n.toUInt32 % p.period = 0 then
    let (s, sum, _) ← printStats s
    return { t with state := s, n := n, sums := t.sums ++ [sum] }
  else return { t with state := s, n := n }

/-- A run of the thread; nothing is left of it after undefined behaviour. -/
def iterate (p : Params) (t : Option (Thread nrStats)) (i : Iteration nrStats) :
    Option (Thread nrStats) :=
  t.bind fun t => t.iterate p i

/-! ### The module -/

/-- The parameters of the module as it is loaded. -/
def Params.loaded (hz : UInt32) : Params where
  hz := hz
  interval := 10
  frequency := hz

/-- The module, with the samples that it allocated so far, the last one first. -/
structure Module (nrStats : Nat) where
  kcpustatThread : Addr := 0
  thread : Thread nrStats := {}
  allocated : List Addr := []

/-- `kcpustat_init`, for what `kthread_run` returns. -/
def kcpustatInit (kthreadRun : Addr) : Module nrStats × Int32 :=
  ({ kcpustatThread := kthreadRun }, 0)

/-- The next iteration of the thread, where there is one that has not returned. -/
def Module.iterate (p : Params) (md : Module nrStats) (i : Iteration nrStats) :
    Option (Module nrStats) :=
  if isErr md.kcpustatThread ∨ md.thread.returned.isSome then some md else do
  let thread ← md.thread.iterate p i
  return { md with thread := thread, allocated := i.kzalloc.toList ++ md.allocated }

/-- `kthread_stop`, which waits until the thread sees the request or has returned. Of an error
pointer it makes an invalid access. -/
def Module.kthreadStop (md : Module nrStats) : Option (Module nrStats) :=
  if isErr md.kcpustatThread then none
  else some { md with thread := { md.thread with returned := md.thread.returned.or (some 0) } }

def Module.kcpustatExit (md : Module nrStats) : Option (Module nrStats) :=
  if md.kcpustatThread ≠ 0 then md.kthreadStop else some md

/-- A run of the module from when it is loaded. -/
def Module.step (p : Params) (md : Option (Module nrStats)) (i : Iteration nrStats) :
    Option (Module nrStats) :=
  md.bind fun md => md.iterate p i

end Pnl.Kcpustat
