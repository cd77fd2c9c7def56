import Mathlib.Data.Set.Defs
import Mathlib.Logic.Function.Basic

/-!
# Commits

`commit.c` keeps the commits of a history in a doubly linked ring and mutates it in place. The heap
is the blocks that `malloc` handed out and `free` did not take back; touching anything else, `NULL`
included, is undefined behaviour and gives `none`.
-/

namespace Pnl.Commits

abbrev Addr := Nat

def null : Addr := 0

structure Version where
  minor : UInt64
  major : UInt16
deriving DecidableEq, Repr

structure Commit where
  id : UInt64
  version : Version
  comment : Addr
  next : Addr
  prev : Addr
deriving DecidableEq, Repr

/-- The allocated commits, and the static `nextId`. -/
structure Heap where
  block : Addr → Option Commit := fun _ => none
  nextId : Int32 := 0

def Heap.live (h : Heap) : Set Addr := {a | (h.block a).isSome}

instance (h : Heap) (a : Addr) : Decidable (a ∈ h.live) :=
  inferInstanceAs (Decidable ((h.block a).isSome = true))

def Heap.next (h : Heap) (a : Addr) : Addr := (h.block a).elim null Commit.next

def Heap.prev (h : Heap) (a : Addr) : Addr := (h.block a).elim null Commit.prev

def Heap.write (h : Heap) (a : Addr) (f : Commit → Commit) : Option Heap :=
  (h.block a).map fun c => { h with block := Function.update h.block a (some (f c)) }

/-- `new_commit`, where `c` is what `malloc` returns. -/
def newCommit (h : Heap) (c : Addr) (major : UInt16) (minor : UInt64) (comment : Addr) :
    Option (Heap × Addr) :=
  if c = null then none else
  let nextId := h.nextId + 1
  let commit : Commit :=
    { id := nextId.toInt64.toUInt64
      comment := comment
      next := c
      prev := c
      version := { major := major, minor := minor } }
  some ({ block := Function.update h.block c (some commit), nextId := nextId }, c)

/-- The four assignments of `insert_commit`, which both `add_*` functions repeat. -/
def insertCommit (h : Heap) (from_ new : Addr) : Option (Heap × Addr) := do
  let first := (← h.block from_).next
  let h ← h.write first fun c => { c with prev := new }
  let h ← h.write new fun c => { c with next := first }
  let h ← h.write from_ fun c => { c with next := new }
  let h ← h.write new fun c => { c with prev := from_ }
  return (h, new)

/-- `add_minor_commit`. The increment happens in `*from`, before the call. -/
def addMinorCommit (h : Heap) (malloc from_ comment : Addr) : Option (Heap × Addr) := do
  let h ← h.write from_ fun c => { c with version.minor := c.version.minor + 1 }
  let version := (← h.block from_).version
  let (h, new) ← newCommit h malloc version.major version.minor comment
  insertCommit h from_ new

def addMajorCommit (h : Heap) (malloc from_ comment : Addr) : Option (Heap × Addr) := do
  let h ← h.write from_ fun c => { c with version.major := c.version.major + 1 }
  let version := (← h.block from_).version
  let (h, new) ← newCommit h malloc version.major 0 comment
  insertCommit h from_ new

/-- `del_commit`, which frees its victim and returns what came before it. -/
def delCommit (h : Heap) (victim : Addr) : Option (Heap × Addr) := do
  let v ← h.block victim
  let p := v.prev
  let n := v.next
  let h ← h.write p fun c => { c with next := n }
  let h ← h.write n fun c => { c with prev := p }
  let h ← h.write victim fun c => { c with prev := null }
  let h ← h.write victim fun c => { c with next := null }
  return ({ h with block := Function.update h.block victim none }, p)

inductive Call where
  | newCommit (malloc : Addr) (major : UInt16) (minor : UInt64) (comment : Addr)
  | addMinorCommit (malloc from_ comment : Addr)
  | addMajorCommit (malloc from_ comment : Addr)
  | delCommit (victim : Addr)

def Call.run (h : Heap) : Call → Option (Heap × Addr)
  | .newCommit malloc major minor comment => Commits.newCommit h malloc major minor comment
  | .addMinorCommit malloc from_ comment => Commits.addMinorCommit h malloc from_ comment
  | .addMajorCommit malloc from_ comment => Commits.addMajorCommit h malloc from_ comment
  | .delCommit victim => Commits.delCommit h victim

def runCalls (h : Heap) : List Call → Option Heap
  | [] => some h
  | call :: calls => do
      let (h, _) ← call.run h
      runCalls h calls

/-- The commits a call names are live, and `malloc` returns a block that is not. -/
def Call.Pre (h : Heap) : Call → Prop
  | .newCommit malloc _ _ _ => malloc ≠ null ∧ malloc ∉ h.live
  | .addMinorCommit malloc from_ _ => malloc ≠ null ∧ malloc ∉ h.live ∧ from_ ∈ h.live
  | .addMajorCommit malloc from_ _ => malloc ≠ null ∧ malloc ∉ h.live ∧ from_ ∈ h.live
  | .delCommit victim => victim ∈ h.live

instance (h : Heap) : (call : Call) → Decidable (call.Pre h)
  | .newCommit _ _ _ _ => inferInstanceAs (Decidable (_ ∧ _))
  | .addMinorCommit _ _ _ => inferInstanceAs (Decidable (_ ∧ _ ∧ _))
  | .addMajorCommit _ _ _ => inferInstanceAs (Decidable (_ ∧ _ ∧ _))
  | .delCommit victim => inferInstanceAs (Decidable (victim ∈ h.live))

def Admissible : Heap → List Call → Prop
  | _, [] => True
  | h, call :: calls => call.Pre h ∧ ∀ r ∈ call.run h, Admissible r.1 calls

instance decidableAdmissible : (h : Heap) → (calls : List Call) → Decidable (Admissible h calls)
  | _, [] => inferInstanceAs (Decidable True)
  | h, call :: calls =>
      match hrun : call.run h with
      | none => decidable_of_iff (call.Pre h) (by simp [Admissible, hrun])
      | some r =>
          have := decidableAdmissible r.1 calls
          decidable_of_iff (call.Pre h ∧ Admissible r.1 calls) (by simp [Admissible, hrun])

end Pnl.Commits
