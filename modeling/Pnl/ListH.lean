import Pnl.Lib.ListFamilies
import Pnl.Lib.Loops
import Pnl.Lib.Runs

/-!
# The list header

The doubly linked lists of `list.h`. A `list_head` is an address with two pointers, and reading or
writing one that is not live has no result.
-/

namespace Pnl.ListH

open ListHeads Loops Runs

abbrev Addr := Nat

def listPoison1 : Addr := 0x00100100

def listPoison2 : Addr := 0x00200200

/-! ### Operations -/

section Operations

variable (l : Links Addr) (live : Set Addr) [DecidablePred (· ∈ live)]

def listAdd (new head : Addr) : Option (Links Addr) := do
  l.insert live new head (← l.getNext live head)

def listDel (entry : Addr) : Option (Links Addr) :=
  l.listDel live listPoison1 listPoison2 entry

def listReplace (old new : Addr) : Option (Links Addr) := do
  let l ← l.setNext live new (← l.getNext live old)
  let l ← l.setPrev live (← l.getNext live new) new
  let l ← l.setPrev live new (← l.getPrev live old)
  l.setNext live (← l.getPrev live new) new

def listReplaceInit (old new : Addr) : Option (Links Addr) := do
  let l ← listReplace l live old new
  l.initListHead live old

def listMove (list head : Addr) : Option (Links Addr) := do
  let l ← l.listDelEntry live list
  listAdd l live list head

def listMoveTail (list head : Addr) : Option (Links Addr) := do
  let l ← l.listDelEntry live list
  l.listAddTail live list head

def listIsLast (list head : Addr) : Option Bool := do
  let next ← l.getNext live list
  return next = head

def listEmpty (head : Addr) : Option Bool := do
  let next ← l.getNext live head
  return next = head

def listEmptyCareful (head : Addr) : Option Bool := do
  let next ← l.getNext live head
  if next = head then return next = (← l.getPrev live head) else return false

def listRotateLeft (head : Addr) : Option (Links Addr) := do
  if ← listEmpty l live head then return l
  let first ← l.getNext live head
  listMoveTail l live first head

def listIsSingular (head : Addr) : Option Bool := do
  if ← listEmpty l live head then return false
  return (← l.getNext live head) = (← l.getPrev live head)

/-- `__list_cut_position`. -/
def cutPosition (list head entry : Addr) : Option (Links Addr) := do
  let newFirst ← l.getNext live entry
  let l ← l.setNext live list (← l.getNext live head)
  let l ← l.setPrev live (← l.getNext live list) list
  let l ← l.setPrev live list entry
  let l ← l.setNext live entry list
  let l ← l.setNext live head newFirst
  l.setPrev live newFirst head

def listCutPosition (list head entry : Addr) : Option (Links Addr) := do
  if ← listEmpty l live head then return l
  if (← listIsSingular l live head) && (← l.getNext live head) ≠ entry && head ≠ entry then
    return l
  if entry = head then l.initListHead live list else cutPosition l live list head entry

/-- `__list_splice`. -/
def splice (list prev next : Addr) : Option (Links Addr) := do
  let first ← l.getNext live list
  let last ← l.getPrev live list
  let l ← l.setPrev live first prev
  let l ← l.setNext live prev first
  let l ← l.setNext live last next
  l.setPrev live next last

def listSplice (list head : Addr) : Option (Links Addr) := do
  if ← listEmpty l live list then return l
  splice l live list head (← l.getNext live head)

def listSpliceTail (list head : Addr) : Option (Links Addr) := do
  if ← listEmpty l live list then return l
  splice l live list (← l.getPrev live head) head

def listSpliceInit (list head : Addr) : Option (Links Addr) := do
  if ← listEmpty l live list then return l
  let l ← splice l live list head (← l.getNext live head)
  l.initListHead live list

def listSpliceTailInit (list head : Addr) : Option (Links Addr) := do
  if ← listEmpty l live list then return l
  let l ← splice l live list (← l.getPrev live head) head
  l.initListHead live list

end Operations

inductive Call where
  | initListHead (list : Addr)
  | listAdd (new head : Addr)
  | listAddTail (new head : Addr)
  | listDel (entry : Addr)
  | listDelInit (entry : Addr)
  | listReplace (old new : Addr)
  | listReplaceInit (old new : Addr)
  | listMove (list head : Addr)
  | listMoveTail (list head : Addr)
  | listRotateLeft (head : Addr)
  | listCutPosition (list head entry : Addr)
  | listSplice (list head : Addr)
  | listSpliceTail (list head : Addr)
  | listSpliceInit (list head : Addr)
  | listSpliceTailInit (list head : Addr)

section Run

variable (live : Set Addr) [DecidablePred (· ∈ live)]

def Call.run (l : Links Addr) : Call → Option (Links Addr)
  | .initListHead list => l.initListHead live list
  | .listAdd new head => ListH.listAdd l live new head
  | .listAddTail new head => l.listAddTail live new head
  | .listDel entry => ListH.listDel l live entry
  | .listDelInit entry => l.listDelInit live entry
  | .listReplace old new => ListH.listReplace l live old new
  | .listReplaceInit old new => ListH.listReplaceInit l live old new
  | .listMove list head => ListH.listMove l live list head
  | .listMoveTail list head => ListH.listMoveTail l live list head
  | .listRotateLeft head => ListH.listRotateLeft l live head
  | .listCutPosition list head entry => ListH.listCutPosition l live list head entry
  | .listSplice list head => ListH.listSplice l live list head
  | .listSpliceTail list head => ListH.listSpliceTail l live list head
  | .listSpliceInit list head => ListH.listSpliceInit l live list head
  | .listSpliceTailInit list head => ListH.listSpliceTailInit l live list head

def runCalls (l : Links Addr) : List Call → Option (Links Addr)
  | [] => some l
  | call :: calls => do
      let l ← call.run live l
      runCalls l calls

end Run

/-! ### Iterators -/

section Iterators

variable (l : Links Addr) (live : Set Addr) [DecidablePred (· ∈ live)]

/-- `list_for_each` with a body that notes where `pos` is. The entry iterators are the same loops on
the `list_head` inside the entry. -/
def listForEach (turns : Nat) (head : Addr) : Option (List Addr) := do
  let turn := fun (w : Addr × List Addr) => do
    let pos ← l.getNext live w.1
    return (pos, w.2 ++ [w.1])
  let pos ← l.getNext live head
  let w ← whileLoop (fun w => w.1 ≠ head) turn turns (pos, [])
  return w.2

def listForEachPrev (turns : Nat) (head : Addr) : Option (List Addr) := do
  let turn := fun (w : Addr × List Addr) => do
    let pos ← l.getPrev live w.1
    return (pos, w.2 ++ [w.1])
  let pos ← l.getPrev live head
  let w ← whileLoop (fun w => w.1 ≠ head) turn turns (pos, [])
  return w.2

/-- The variables of `list_for_each_safe`, and where `pos` has been. -/
structure SafeLoop where
  links : Links Addr
  pos : Addr
  n : Addr
  visited : List Addr := []

/-- A body that makes the call `fate pos`, or none. -/
def safeBody (fate : Addr → Option Call) (l : Links Addr) (pos : Addr) : Option (Links Addr) :=
  match fate pos with
  | none => some l
  | some call => call.run live l

def safeTurn (fate : Addr → Option Call) (w : SafeLoop) : Option SafeLoop := do
  let links ← safeBody live fate w.links w.pos
  let n ← links.getNext live w.n
  return { links := links, pos := w.n, n := n, visited := w.visited ++ [w.pos] }

def listForEachSafe (fate : Addr → Option Call) (turns : Nat) (head : Addr) :
    Option (Links Addr × List Addr) := do
  let pos ← l.getNext live head
  let n ← l.getNext live pos
  let w ← whileLoop (fun w => w.pos ≠ head) (safeTurn live fate) turns
    { links := l, pos := pos, n := n }
  return (w.links, w.visited)

end Iterators

/-! ### What the operations are for -/

/-- `old` gives its place to `new`, be it a head or an entry. -/
def replace (old new : Addr) (p : Addr × List Addr) : Addr × List Addr :=
  (if p.1 = old then new else p.1, p.2.map fun a => if a = old then new else a)

/-- `list` gets the entries of `head` up to `entry`, and `head` keeps the others. -/
def cut (lists : ListFamily Addr) (list head entry : Addr) (entries : List Addr) : ListFamily Addr :=
  (list, entries.takeWhile (· ≠ entry) ++ [entry])
    :: (forget lists list).map fun p =>
      if p.1 = head then (head, (entries.dropWhile (· ≠ entry)).tail) else p

/-- The entries of `list` move on to where `join` puts them. A list without entries stays. -/
def joined (lists : ListFamily Addr) (list : Addr)
    (join : List Addr → Addr × List Addr → Addr × List Addr) (init : Bool) : ListFamily Addr :=
  match lists.lookup list with
  | none | some [] => lists
  | some seg => (if init then [(list, [])] else []) ++ (forget lists list).map (join seg)

/-- The lists after a call. -/
def Call.after (lists : ListFamily Addr) : Call → ListFamily Addr
  | .initListHead list => (list, []) :: forget lists list
  | .listAdd new head => (forget lists new).map (insertAfter head [new])
  | .listAddTail new head => (forget lists new).map (insertBefore head [new])
  | .listDel entry => detach lists entry
  | .listDelInit entry => (entry, []) :: detach lists entry
  | .listReplace old new => (forget lists new).map (replace old new)
  | .listReplaceInit old new => (old, []) :: (forget lists new).map (replace old new)
  | .listMove list head => (detach lists list).map (insertAfter head [list])
  | .listMoveTail list head => (detach lists list).map (insertBefore head [list])
  | .listRotateLeft head =>
      lists.map fun p => if p.1 = head then (head, p.2.rotate 1) else p
  | .listCutPosition list head entry =>
      match lists.lookup head with
      | none | some [] => lists
      | some (a :: entries) =>
          if entry = head then (list, []) :: forget lists list
          else if entry ∈ a :: entries then cut lists list head entry (a :: entries)
          else lists
  | .listSplice list head => joined lists list (insertAfter head) false
  | .listSpliceTail list head => joined lists list (insertBefore head) false
  | .listSpliceInit list head => joined lists list (insertAfter head) true
  | .listSpliceTailInit list head => joined lists list (insertBefore head) true

/-- A cell that can become a head or an entry. A list it may head is given up. -/
def Unlisted (live : Set Addr) (lists : ListFamily Addr) (a : Addr) : Prop :=
  a ∈ live ∧ ∀ p ∈ lists, a ∉ p.2

def Placed (lists : ListFamily Addr) (place : Addr) : Prop := ∃ p ∈ lists, place ∈ cells p

/-- What the header asks of its callers: what they add is on no list, what they name as a place is
on one, and what they take as a list is a head. -/
def Call.Pre (live : Set Addr) (lists : ListFamily Addr) : Call → Prop
  | .initListHead list => Unlisted live lists list
  | .listAdd new head | .listAddTail new head =>
      Unlisted live lists new ∧ Placed (forget lists new) head
  | .listDel entry | .listDelInit entry => Placed lists entry
  | .listReplace old new | .listReplaceInit old new =>
      Unlisted live lists new ∧ Placed (forget lists new) old
  | .listMove list head | .listMoveTail list head =>
      Placed lists list ∧ Placed (detach lists list) head
  | .listRotateLeft head => ∃ p ∈ lists, p.1 = head
  | .listCutPosition list head entry =>
      Unlisted live lists list ∧ list ≠ head
        ∧ ∃ p ∈ lists, p.1 = head ∧ (entry ∈ cells p ∨ p.2.length ≤ 1)
  | .listSplice list head | .listSpliceTail list head | .listSpliceInit list head
  | .listSpliceTailInit list head =>
      (∃ p ∈ lists, p.1 = list) ∧ Placed (forget lists list) head

/-- What takes `pos` off its list, and puts it on no list that is being gone through. -/
def Removes (cells : List Addr) (pos : Addr) : Call → Prop
  | .listDel entry | .listDelInit entry => entry = pos
  | .listMove list head | .listMoveTail list head => list = pos ∧ head ∉ cells
  | _ => False

/-- Every call of the run is one the header allows. -/
abbrev Admissible (live : Set Addr) (lists : ListFamily Addr) (calls : List Call) : Prop :=
  StepsMeet Call.after (Call.Pre live) lists calls

instance (lists : ListFamily Addr) (place : Addr) : Decidable (Placed lists place) :=
  inferInstanceAs (Decidable (∃ p ∈ lists, place ∈ cells p))

section Decidable

variable (live : Set Addr) [DecidablePred (· ∈ live)]

instance (lists : ListFamily Addr) (a : Addr) : Decidable (Unlisted live lists a) :=
  inferInstanceAs (Decidable (_ ∧ _))

instance (lists : ListFamily Addr) : (call : Call) → Decidable (call.Pre live lists)
  | .initListHead _ => inferInstanceAs (Decidable (Unlisted _ _ _))
  | .listAdd _ _ | .listAddTail _ _ => inferInstanceAs (Decidable (_ ∧ _))
  | .listDel _ | .listDelInit _ => inferInstanceAs (Decidable (Placed _ _))
  | .listReplace _ _ | .listReplaceInit _ _ => inferInstanceAs (Decidable (_ ∧ _))
  | .listMove _ _ | .listMoveTail _ _ => inferInstanceAs (Decidable (_ ∧ _))
  | .listRotateLeft _ => inferInstanceAs (Decidable (∃ p ∈ lists, _))
  | .listCutPosition _ _ _ =>
      inferInstanceAs (Decidable (Unlisted _ _ _ ∧ _ ∧ ∃ p ∈ lists, _))
  | .listSplice _ _ | .listSpliceTail _ _ | .listSpliceInit _ _ | .listSpliceTailInit _ _ =>
      inferInstanceAs (Decidable ((∃ p ∈ lists, _) ∧ _))

end Decidable

end Pnl.ListH
