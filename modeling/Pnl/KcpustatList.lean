import Pnl.Kcpustat
import Pnl.Lib.ListHeads
import Pnl.Lib.Loops

/-!
# CPU statistics, by their pointers

`save_stats` and `print_stats` once more, with the pointers of `my_head` and of the samples, and the
loops as the iterators of `list.h` run them. The `list_head` of a sample is its first field, so that
both have one address and `list_entry` changes nothing.
-/

namespace Pnl.Kcpustat

open ListHeads Loops

def listPoison1 : Addr := 0xdead000000000100

def listPoison2 : Addr := 0xdead000000000200

variable {nrStats : Nat}

structure Memory (nrStats : Nat) where
  links : Links Addr
  stat : Addr → Option (Cpustat nrStats) := fun _ => none
  freed : List Addr := []

/-- The static variable `my_head`, and the samples that were allocated and not freed. -/
def Memory.live (m : Memory nrStats) (myHead : Addr) : Set Addr :=
  {a | a = myHead ∨ (m.stat a).isSome}

instance Memory.decidableLive (m : Memory nrStats) (myHead : Addr) :
    DecidablePred (· ∈ m.live myHead) := fun a =>
  inferInstanceAs (Decidable (a = myHead ∨ (m.stat a).isSome = true))

/-- `LIST_HEAD(my_head)`. -/
def Memory.listHead (myHead : Addr) : Memory nrStats where
  links :=
    { next := fun _ => myHead
      prev := fun _ => myHead }

def Memory.write (m : Memory nrStats) (a : Addr) (c : Cpustat nrStats) : Memory nrStats :=
  { m with stat := Function.update m.stat a (some c) }

/-- `kzalloc`, when it returns `a`. -/
def Memory.kzalloc (m : Memory nrStats) (a : Addr) : Memory nrStats where
  links :=
    { next := Function.update m.links.next a 0
      prev := Function.update m.links.prev a 0 }
  stat := Function.update m.stat a (some fun _ => 0)
  freed := m.freed

def Memory.kfree (m : Memory nrStats) (a : Addr) : Option (Memory nrStats) := do
  let _ ← m.stat a
  return { m with stat := Function.update m.stat a none, freed := a :: m.freed }

variable (myHead : Addr)

def Memory.listDel (m : Memory nrStats) (a : Addr) : Option (Memory nrStats) := do
  let links ← m.links.listDel (m.live myHead) listPoison1 listPoison2 a
  return { m with links := links }

def Memory.saveStats (m : Memory nrStats) (kzalloc : Option Addr)
    (kcpustatCpu : Fin nrStats → List (Cpustat nrStats)) : Option (Memory nrStats × Int32) :=
  match kzalloc with
  | none => some (m, -enomem)
  | some s => do
      let m := m.kzalloc s
      let stat ← m.stat s
      let m := m.write s fun i => (kcpustatCpu i).foldl (fun sum k => sum + k i) (stat i)
      let links ← m.links.listAddTail (m.live myHead) s myHead
      return ({ m with links := links }, 0)

/-- The body of the first loop of `print_stats`. -/
def Memory.subtractPrev (m : Memory nrStats) (first k : Addr) : Option (Memory nrStats) :=
  if k ≠ first then do
    let prev ← m.links.getPrev (m.live myHead) k
    let prevStat ← m.stat prev
    let stat ← m.stat k
    return m.write k (stat - prevStat)
  else some m

/-- One turn of it: the iterator goes back from `k` after the body. -/
def noncumulativeTurn (first : Addr) (w : Memory nrStats × Addr) :
    Option (Memory nrStats × Addr) := do
  let m ← w.1.subtractPrev myHead first w.2
  let k ← m.links.getPrev (m.live myHead) w.2
  return (m, k)

/-- The variables of the second loop of `print_stats`. -/
structure Summing (nrStats : Nat) where
  memory : Memory nrStats
  k : Addr
  n : Addr
  sum : Cpustat nrStats := fun _ => 0
  nr : Int32 := 0

/-- One turn of it: the iterator reads what comes after `n` when `k` is gone. -/
def sumTurn (w : Summing nrStats) : Option (Summing nrStats) := do
  let stat ← w.memory.stat w.k
  let m ← w.memory.listDel myHead w.k
  let m ← m.kfree w.k
  let n ← m.links.getNext (m.live myHead) w.n
  return { memory := m, k := w.n, n := n, sum := w.sum + stat, nr := w.nr + 1 }

def Memory.printStats (turns : Nat) (m : Memory nrStats) :
    Option (Memory nrStats × Cpustat nrStats × Int32) := do
  let first ← m.links.getNext (m.live myHead) myHead
  let k ← m.links.getPrev (m.live myHead) myHead
  let (m, _) ← whileLoop (fun w => w.2 ≠ myHead) (noncumulativeTurn myHead first) turns (m, k)
  let m ← m.listDel myHead first
  let m ← m.kfree first
  let k ← m.links.getNext (m.live myHead) myHead
  let n ← m.links.getNext (m.live myHead) k
  let w ← whileLoop (fun w => w.k ≠ myHead) (sumTurn myHead) turns { memory := m, k := k, n := n }
  let links ← w.memory.links.listDelInit (w.memory.live myHead) myHead
  return ({ w.memory with links := links }, w.sum, w.nr)

/-! ### The thread -/

structure PointerThread (nrStats : Nat) where
  memory : Memory nrStats
  n : Int32 := 0
  sums : List (Cpustat nrStats) := []
  returned : Option Int32 := none

/-- The thread before its first iteration. -/
def PointerThread.start : PointerThread nrStats where
  memory := Memory.listHead myHead

/-- An iteration of `my_kcpustat_fn`, with a bound on the turns of the loops of `print_stats`. -/
def PointerThread.iterate (p : Params) (turns : Nat) (t : PointerThread nrStats)
    (i : Iteration nrStats) : Option (PointerThread nrStats) :=
  if t.returned.isSome then some t else do
  let (m, err) ← t.memory.saveStats myHead i.kzalloc i.kcpustatCpu
  if err ≠ 0 then return { t with memory := m, returned := some err }
  let n := t.n + 1
  if p.frequency = 0 ∨ p.period = 0 then none else
  if n.toUInt32 % p.period = 0 then
    let (m, sum, _) ← m.printStats myHead turns
    return { t with memory := m, n := n, sums := t.sums ++ [sum] }
  else return { t with memory := m, n := n }

def iteratePointers (p : Params) (turns : Nat) (t : Option (PointerThread nrStats))
    (i : Iteration nrStats) : Option (PointerThread nrStats) :=
  t.bind fun t => t.iterate myHead p turns i

end Pnl.Kcpustat
