import Pnl.Commit
import Pnl.Lib.Bytes
import Pnl.Lib.Loops

/-!
# Histories

`history.c` keeps a pointer to one commit of a ring and reads the ring from there. What the
functions print is kept line by line, with the commit a line is about, and a function that follows
the pointers is run with a bound on its turns.
-/

namespace Pnl.Commits

open Bytes Loops

structure History where
  commitCount : UInt64
  name : Addr
  commitList : Addr
deriving DecidableEq, Repr

inductive Print where
  | historique (name : Addr)
  | commit (c : Addr) (content : Commit)
  | newline
  | notHere
deriving DecidableEq, Repr

/-- `%ld`. -/
def decimalLong (n : UInt64) : List UInt8 :=
  if n.toInt64 < 0 then ascii ['-'] ++ decimal (2 ^ 64 - n.toNat) else decimal n.toNat

/-- The text that `printf` writes, for the texts that `%s` arguments point to. -/
def Print.text (strings : Addr → List UInt8) : Print → List UInt8
  | .historique name =>
      ascii ['H', 'i', 's', 't', 'o', 'r', 'i', 'q', 'u', 'e', ' ', 'd', 'e', ' ', ':', ' ']
        ++ strings name ++ ascii ['\n']
  | .commit _ c =>
      decimalLong c.id ++ ascii [':', ' '] ++ decimal c.version.major.toNat ++ ascii ['-']
        ++ decimalLong c.version.minor ++ ascii [' ', '(']
        ++ (if 1 &&& c.version.minor ≠ 0 then ascii ['u', 'n', 's', 't', 'a', 'b', 'l', 'e']
          else ascii ['s', 't', 'a', 'b', 'l', 'e'])
        ++ ascii [')', ' ', '\''] ++ strings c.comment ++ ascii ['\'', '\n']
  | .newline => ascii ['\n']
  | .notHere => ascii ['N', 'o', 't', ' ', 'H', 'e', 'r', 'e', ' ', '!', '!', '!', '\n']

def displayCommit (h : Heap) (c : Addr) : Option Print := (h.block c).map (Print.commit c)

/-- `new_history`, where `malloc` and `c` are what the two calls of `malloc` return, and `first` is
the address of `"First"`. -/
def newHistory (h : Heap) (malloc c name first : Addr) : Option (Heap × History) :=
  if malloc = null then none else
  (newCommit h c 0 0 first).map fun (h, c) => (h, { commitCount := 0, commitList := c, name := name })

def lastCommit (h : Heap) (history : History) : Option Addr :=
  (h.block history.commitList).map Commit.prev

/-- One turn of the loop of `display_history`: its cursor, and what it has printed. -/
def displayTurn (h : Heap) (s : Addr × List Print) : Option (Addr × List Print) := do
  let line ← displayCommit h s.1
  let p ← h.block s.1
  return (p.next, s.2 ++ [line])

def displayHistory (turns : Nat) (h : Heap) (history : History) : Option (List Print) := do
  let q ← lastCommit h history
  let s ← whileLoop (fun s => s.1 ≠ q) (displayTurn h) turns
    (history.commitList, [.historique history.name])
  return s.2 ++ [.newline]

/-- `infos` compares the `unsigned short` with its `int` argument. -/
def Version.is (v : Version) (major : Int32) (minor : UInt64) : Bool :=
  decide ((v.major.toNat : Int) = major.toInt ∧ v.minor = minor)

/-- One turn of the loop of `infos`: its cursor, and `found`. -/
def infosTurn (h : Heap) (major : Int32) (minor : UInt64) (s : Addr × Bool) :
    Option (Addr × Bool) := do
  let p ← h.block s.1
  return (p.next, p.version.is major minor || s.2)

def infos (turns : Nat) (h : Heap) (history : History) (major : Int32) (minor : UInt64) :
    Option (List Print) := do
  let q ← lastCommit h history
  let s ← whileLoop (fun s => !s.2 && s.1 ≠ q) (infosTurn h major minor) turns
    (history.commitList, false)
  if s.2 then
    let line ← displayCommit h s.1
    return [line]
  else return [.notHere]

/-- What a program does with a history and with the commits on the heap, one function at a time.
`displayLast` is the `display_commit(last_commit(h))` of `testHistory.c`. -/
inductive Use where
  | call (call : Call)
  | displayHistory
  | displayLast
  | infos (major : Int32) (minor : UInt64)

def Use.run (turns : Nat) (history : History) (h : Heap) : Use → Option (Heap × List Print)
  | .call c => do
      let (h, _) ← c.run h
      return (h, [])
  | .displayHistory => do
      let prints ← Commits.displayHistory turns h history
      return (h, prints)
  | .displayLast => do
      let last ← lastCommit h history
      let line ← displayCommit h last
      return (h, [line])
  | .infos major minor => do
      let prints ← Commits.infos turns h history major minor
      return (h, prints)

def runUses (turns : Nat) (history : History) (h : Heap) : List Use → Option (Heap × List Print)
  | [] => some (h, [])
  | use :: uses => do
      let (h, prints) ← use.run turns history h
      let (h, prints') ← runUses turns history h uses
      return (h, prints ++ prints')

/-- The calls of `commit.c` among them. -/
def calls (uses : List Use) : List Call :=
  uses.filterMap fun
    | .call c => some c
    | _ => none

end Pnl.Commits
