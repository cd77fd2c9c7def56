import Pnl.Lib.HashLists
import Pnl.Lib.Loops
import Pnl.Lib.Runs

/-!
# The hash lists of the list header

The other half of `list.h`. A `struct hlist_node **` is the place of a pointer: the `first` of a head
or the `next` of a node. What is not live can be neither read nor written, and neither can what the
null pointer points to.
-/

namespace Pnl.Hlist

open HashLists Loops Runs

abbrev Addr := Nat

/-- Heads and nodes are at different addresses, so a place says which of the two it is in. -/
abbrev Place := HashLists.Place Addr Addr

abbrev Pointers := HashLists.Pointers Addr Addr

abbrev Table := HashLists.Table Addr Addr

def listPoison1 : Addr := 0x00100100

/-- There is nothing at this address, be it taken for a head or for a node. -/
def listPoison2 : Place := .first 0x00200200

/-! ### Operations -/

section Operations

variable (l : Pointers) (live : Set Place) [DecidablePred (· ∈ live)]

def initHlistHead (h : Addr) : Option Pointers := l.store live (.first h) none

def initHlistNode (h : Addr) : Option Pointers := do
  let l ← l.store live (.next h) none
  l.storePprev live h none

def hlistUnhashed (h : Addr) : Option Bool := do
  let pprev ← l.loadPprev live h
  return pprev.isNone

def hlistEmpty (h : Addr) : Option Bool := do
  let first ← l.load live (.first h)
  return first.isNone

/-- `__hlist_del`. -/
def delete (n : Addr) : Option Pointers := do
  let next ← l.load live (.next n)
  let pprev ← l.loadPprev live n
  let place ← pprev
  let l ← l.store live place next
  l.hang live next pprev

def hlistDel (n : Addr) : Option Pointers := do
  let l ← delete l live n
  let l ← l.store live (.next n) (some listPoison1)
  l.storePprev live n (some listPoison2)

def hlistDelInit (n : Addr) : Option Pointers := do
  if ← hlistUnhashed l live n then return l
  let l ← delete l live n
  initHlistNode l live n

def hlistAddHead (n h : Addr) : Option Pointers := do
  let first ← l.load live (.first h)
  let l ← l.store live (.next n) first
  let l ← l.hang live first (some (.next n))
  let l ← l.store live (.first h) (some n)
  l.storePprev live n (some (.first h))

def hlistAddBefore (n next : Addr) : Option Pointers := do
  let l ← l.storePprev live n (← l.loadPprev live next)
  let l ← l.store live (.next n) (some next)
  let l ← l.storePprev live next (some (.next n))
  let pprev ← l.loadPprev live n
  let place ← pprev
  l.store live place (some n)

def hlistAddBehind (n prev : Addr) : Option Pointers := do
  let l ← l.store live (.next n) (← l.load live (.next prev))
  let l ← l.store live (.next prev) (some n)
  let l ← l.storePprev live n (some (.next prev))
  l.hang live (← l.load live (.next n)) (some (.next n))

def hlistAddFake (n : Addr) : Option Pointers := l.storePprev live n (some (.next n))

def hlistMoveList (old new : Addr) : Option Pointers := do
  let l ← l.store live (.first new) (← l.load live (.first old))
  let l ← l.hang live (← l.load live (.first new)) (some (.first new))
  l.store live (.first old) none

end Operations

inductive Call where
  | initHlistHead (h : Addr)
  | initHlistNode (h : Addr)
  | hlistDel (n : Addr)
  | hlistDelInit (n : Addr)
  | hlistAddHead (n h : Addr)
  | hlistAddBefore (n next : Addr)
  | hlistAddBehind (n prev : Addr)
  | hlistAddFake (n : Addr)
  | hlistMoveList (old new : Addr)

section Run

variable (live : Set Place) [DecidablePred (· ∈ live)]

def Call.run (l : Pointers) : Call → Option Pointers
  | .initHlistHead h => Hlist.initHlistHead l live h
  | .initHlistNode h => Hlist.initHlistNode l live h
  | .hlistDel n => Hlist.hlistDel l live n
  | .hlistDelInit n => Hlist.hlistDelInit l live n
  | .hlistAddHead n h => Hlist.hlistAddHead l live n h
  | .hlistAddBefore n next => Hlist.hlistAddBefore l live n next
  | .hlistAddBehind n prev => Hlist.hlistAddBehind l live n prev
  | .hlistAddFake n => Hlist.hlistAddFake l live n
  | .hlistMoveList old new => Hlist.hlistMoveList l live old new

def runCalls (l : Pointers) : List Call → Option Pointers
  | [] => some l
  | call :: calls => do
      let l ← call.run live l
      runCalls l calls

end Run

/-! ### Iterators -/

section Iterators

variable (l : Pointers) (live : Set Place) [DecidablePred (· ∈ live)]

/-- `hlist_for_each` with a body that notes where `pos` is. -/
def hlistForEach (turns : Nat) (head : Addr) : Option (List Addr) := do
  let turn := fun (w : Option Addr × List Addr) => do
    let pos ← w.1
    let next ← l.load live (.next pos)
    return (next, w.2 ++ [pos])
  let pos ← l.load live (.first head)
  let w ← whileLoop (fun w => w.1.isSome) turn turns (pos, [])
  return w.2

/-- The variables of `hlist_for_each_safe`, and where `pos` has been. -/
structure SafeLoop where
  pointers : Pointers
  pos : Option Addr
  visited : List Addr := []

/-- A turn, with a body that makes the calls `fate pos`. -/
def safeTurn (fate : Addr → List Call) (w : SafeLoop) : Option SafeLoop := do
  let pos ← w.pos
  let n ← w.pointers.load live (.next pos)
  let pointers ← runCalls live w.pointers (fate pos)
  return { pointers := pointers, pos := n, visited := w.visited ++ [pos] }

def hlistForEachSafe (fate : Addr → List Call) (turns : Nat) (head : Addr) :
    Option (Pointers × List Addr) := do
  let pos ← l.load live (.first head)
  let w ← whileLoop (fun w => w.pos.isSome) (safeTurn live fate) turns { pointers := l, pos := pos }
  return (w.pointers, w.visited)

end Iterators

/-! ### What the operations are for -/

def mapLists (t : Table) (f : Addr × List Addr → List Addr) : Table :=
  { t with lists := t.lists.map fun p => (p.1, f p) }

/-- The table after a call. -/
def Call.after (t : Table) : Call → Table
  | .initHlistHead h => { t with lists := (h, []) :: (t.forget h).lists }
  | .initHlistNode h => t.setMark h .idle
  | .hlistDel n => (mapLists t fun p => p.2.erase n).setMark n .loose
  | .hlistDelInit n => (mapLists t fun p => p.2.erase n).setMark n .idle
  | .hlistAddHead n h => (mapLists t fun p => if p.1 = h then n :: p.2 else p.2).setMark n .loose
  | .hlistAddBefore n next =>
      (mapLists t fun p => p.2.flatMap fun a => if a = next then [n, a] else [a]).setMark n .loose
  | .hlistAddBehind n prev =>
      (mapLists t fun p => p.2.flatMap fun a => if a = prev then [a, n] else [a]).setMark n .loose
  | .hlistAddFake n => t.setMark n .fake
  | .hlistMoveList old new =>
      match t.lists.lookup old with
      | none => t
      | some ns => { t with lists := (old, []) :: (new, ns) :: ((t.forget old).forget new).lists }

/-- What the header asks of its callers: what they add is on no list, what they name as a place is on
one, and what they delete is on one or pretends to be. -/
def Call.Pre (live : Set Place) (t : Table) : Call → Prop
  | .initHlistHead h => .first h ∈ live
  | .initHlistNode h => .next h ∈ live ∧ t.Free h
  | .hlistDel n => ¬ t.Free n ∨ t.mark n = .fake
  | .hlistDelInit n => ¬ t.Free n ∨ t.mark n ≠ .loose
  | .hlistAddHead n h => .next n ∈ live ∧ t.Free n ∧ ∃ p ∈ t.lists, p.1 = h
  | .hlistAddBefore n next => .next n ∈ live ∧ t.Free n ∧ ¬ t.Free next
  | .hlistAddBehind n prev => .next n ∈ live ∧ t.Free n ∧ ¬ t.Free prev
  | .hlistAddFake n => t.mark n = .idle
  | .hlistMoveList old new => (∃ p ∈ t.lists, p.1 = old) ∧ .first new ∈ live ∧ new ≠ old

/-- A call that leaves the nodes `rest` where they are, at the end of the list of `head`. -/
def Spares (head : Addr) (rest : List Addr) : Call → Prop
  | .initHlistHead h => h ≠ head
  | .hlistDel n | .hlistDelInit n => n ∉ rest
  | .hlistAddBefore _ place | .hlistAddBehind _ place => place ∉ rest
  | .hlistMoveList old new => old ≠ head ∧ new ≠ head
  | .initHlistNode _ | .hlistAddHead _ _ | .hlistAddFake _ => True

/-- What the body does at a node leaves the nodes after it where they are. -/
def SparesAll (head : Addr) (fate : Addr → List Call) : List Addr → Prop
  | [] => True
  | n :: rest => (∀ call ∈ fate n, Spares head rest call) ∧ SparesAll head fate rest

/-- Every call of the run is one the header allows. -/
abbrev Admissible (live : Set Place) (t : Table) (calls : List Call) : Prop :=
  StepsMeet Call.after (Call.Pre live) t calls

instance (live : Set Place) [DecidablePred (· ∈ live)] (t : Table) :
    (call : Call) → Decidable (call.Pre live t)
  | .initHlistHead h => inferInstanceAs (Decidable (Place.first h ∈ live))
  | .initHlistNode _ => inferInstanceAs (Decidable (_ ∧ _))
  | .hlistDel _ => inferInstanceAs (Decidable (_ ∨ _))
  | .hlistDelInit _ => inferInstanceAs (Decidable (_ ∨ _))
  | .hlistAddHead _ _ => inferInstanceAs (Decidable (_ ∧ _ ∧ ∃ p ∈ t.lists, _))
  | .hlistAddBefore _ _ => inferInstanceAs (Decidable (_ ∧ _ ∧ _))
  | .hlistAddBehind _ _ => inferInstanceAs (Decidable (_ ∧ _ ∧ _))
  | .hlistAddFake _ => inferInstanceAs (Decidable (_ = _))
  | .hlistMoveList _ _ => inferInstanceAs (Decidable ((∃ p ∈ t.lists, _) ∧ _ ∧ _))

instance (head : Addr) (rest : List Addr) : (call : Call) → Decidable (Spares head rest call)
  | .initHlistHead h => inferInstanceAs (Decidable (h ≠ head))
  | .hlistDel n | .hlistDelInit n => inferInstanceAs (Decidable (n ∉ rest))
  | .hlistAddBefore _ place | .hlistAddBehind _ place => inferInstanceAs (Decidable (place ∉ rest))
  | .hlistMoveList _ _ => inferInstanceAs (Decidable (_ ∧ _))
  | .initHlistNode _ | .hlistAddHead _ _ | .hlistAddFake _ => inferInstanceAs (Decidable True)

instance decidableSparesAll (head : Addr) (fate : Addr → List Call) :
    (ns : List Addr) → Decidable (SparesAll head fate ns)
  | [] => inferInstanceAs (Decidable True)
  | n :: rest =>
      have := decidableSparesAll head fate rest
      inferInstanceAs (Decidable ((∀ call ∈ fate n, Spares head rest call) ∧ _))

end Pnl.Hlist
