import Pnl.TaskMonitor2

/-!
# A reader of the samples, step by step

`sysfs_show` and `debugfs_task_monitor_show` take no lock. Here their loops are cut at the places
where another call can get in: around taking a reference, formatting, dropping the reference and
following a link. `my_shrink_scan` and `save_sample` come between any two steps, each as a whole.
-/

namespace Pnl.TaskMonitor2

open Bytes Krefs

inductive Phase where
  | take
  | format
  | drop
  | move
deriving DecidableEq, Repr

/-- Where a reader is: at a monitor it has no reference on yet, at a sample of `m`, at the end of
the samples of `m`, or done with `m`. It is `lost` when the link it follows is not on the list. -/
inductive Place where
  | monitor (m : Addr)
  | sample (m t : Addr) (phase : Phase)
  | endOfSamples (m : Addr)
  | nextMonitor (m : Addr)
  | returned
  | lost
deriving DecidableEq, Repr

/-- The module and one reader in it, with the local variables of the show function. -/
structure Config where
  state : State
  place : Place
  pid : Int32 := 0
  out : Output

/-- `t->list.prev`, or nothing for the head of the list. -/
def listPrev (l : List Addr) (t : Addr) : Option Addr := (l.takeWhile (· ≠ t)).getLast?

def atSample (m : Addr) : Option Addr → Place
  | none => .endOfSamples m
  | some t => .sample m t .take

def atMonitor : Option Addr → Place
  | none => .returned
  | some m => .monitor m

def Config.start (s : State) (buf : List UInt8) : Config where
  state := s
  place := atMonitor s.tasks.head?
  out := { buf := buf }

def Config.read (emit : Emit) (c : Config) : Config :=
  match c.place with
  | .monitor m =>
      let (s, got) := c.state.krefGetMonitor m
      if got then
        { c with state := s, place := atSample m (s.head m).getLast?, pid := s.pid m }
      else { c with state := s, place := .nextMonitor m }
  | .sample m t .take =>
      let (s, got) := c.state.krefGetSample t
      { c with state := s, place := .sample m t (if got then .format else .move) }
  | .sample m t .format =>
      match emit c.pid (c.state.times t) c.out with
      | none => { c with place := .returned }
      | some out => { c with state := c.state.touchSample t, place := .sample m t .drop, out := out }
  | .sample m t .drop =>
      { c with state := c.state.krefPutSample t, place := .sample m t .move }
  | .sample m t .move =>
      let s := (c.state.touchSample t).followPrev t
      if t ∈ s.head m ∧ t ∉ s.bent then
        { c with state := s, place := atSample m (listPrev (s.head m) t) }
      else { c with state := s, place := .lost }
  | .endOfSamples m => { c with state := c.state.krefPutMonitor m, place := .nextMonitor m }
  | .nextMonitor m =>
      let s := c.state.touchMonitor m
      { c with state := s, place := atMonitor (listNext s.tasks m) }
  | .returned => c
  | .lost => c

inductive Action where
  | read
  | myShrinkScan (gfpMask : UInt32)
  | saveSample (tm : Addr) (alloc : Option (Addr × Times)) (task : Option Task)

def Config.act (emit : Emit) (c : Config) : Action → Config
  | .read => c.read emit
  | .myShrinkScan gfpMask => { c with state := (TaskMonitor2.myShrinkScan c.state gfpMask).1 }
  | .saveSample tm alloc task =>
      { c with state := (TaskMonitor2.saveSample c.state tm alloc task).1 }

end Pnl.TaskMonitor2
