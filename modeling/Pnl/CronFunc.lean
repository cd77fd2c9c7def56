import Mathlib.Data.List.Basic

/-!
# A program and the `read` it is given

`cron_func` reads commands of one byte from standard input, and every alarm makes it call `func` of
`libfunc.so`, in `nothing.c`. Its `read` is the one of the C library, unless `libsym.so` (`handle.c`)
or `libread.so` (`tchao.c`) is loaded before it. An alarm comes between any two steps of `main`.
-/

namespace Pnl.CronFunc

/-- A line that the process prints. -/
inductive Line where
  | enter
  | inserting
  | restoring
  | nothingToDo
  | tchao
deriving DecidableEq, Repr

/-- Where `main` is: at the top of its loop, at the `read`, at the `switch`, or returned. -/
inductive Pc where
  | top
  | read
  | switch
  | returned (ret : Int)
deriving DecidableEq, Repr

structure Process where
  pc : Pc := .top
  c : UInt8 := 0
  /-- What reads of standard input give from now on: bytes and failures, then the end. -/
  input : List (Option UInt8)
  out : List Line := []
deriving DecidableEq, Repr

def Process.print (p : Process) (line : Line) : Process := { p with out := p.out ++ [line] }

/-! ### Three functions called `read` -/

/-- What a call of `read` for one byte does: what it returns, what it leaves in the buffer, what is
left to read and what it prints. -/
structure Got where
  ret : Int
  buf : UInt8
  input : List (Option UInt8)
  printed : List Line := []

/-- `read` of the C library. -/
def trueRead (input : List (Option UInt8)) (buf : UInt8) : Got :=
  match input with
  | [] => { ret := 0, buf := buf, input := [] }
  | none :: input => { ret := -1, buf := buf, input := input }
  | some c :: input => { ret := 1, buf := c, input := input }

/-- `read` of `handle.c`, where `c` is what its uninitialised variable holds. -/
def handleRead (c : UInt8) (input : List (Option UInt8)) (_ : UInt8) : Got :=
  let got := trueRead input c
  -- what `true_read` returns is dropped
  { ret := 1, buf := if got.buf = 114 then 105 else got.buf, input := got.input }

/-- `read` of `tchao.c`. -/
def tchaoRead (input : List (Option UInt8)) (_ : UInt8) : Got :=
  { ret := 1, buf := 101, input := input, printed := [.tchao] }

/-! ### The process -/

/-- A step of `main`, for its `read`. -/
def Process.step (read : List (Option UInt8) → UInt8 → Got) (p : Process) : Process :=
  match p.pc with
  | .top => { if p.c = 0 then p.print .enter else p with pc := .read }
  | .read =>
      let got := read p.input p.c
      { p with
        pc := if got.ret ≠ 1 then .returned (-1) else .switch
        c := got.buf
        input := got.input
        out := p.out ++ got.printed }
  | .switch =>
      let p :=
        if p.c = 105 then { p.print .inserting with c := 0 }
        else if p.c = 114 then { p.print .restoring with c := 0 }
        else p
      { p with pc := if p.c ≠ 101 then .top else .returned 0 }
  | .returned _ => p

/-- `handle_sigalrm`. The next alarm is its `alarm(3)`. -/
def Process.handleSigalrm (p : Process) : Process :=
  match p.pc with
  | .returned _ => p
  | _ => p.print .nothingToDo

inductive Event where
  /-- `c` is what the variable of `handle.c` holds, if the step comes there. -/
  | main (c : UInt8)
  | sigalrm
deriving DecidableEq, Repr

def happen (read : UInt8 → List (Option UInt8) → UInt8 → Got) (p : Process) : Event → Process
  | .main c => p.step (read c)
  | .sigalrm => p.handleSigalrm

/-- What can be seen of the process: what it prints, and what it returns. -/
def Process.seen (p : Process) : List Line × Option Int :=
  (p.out, match p.pc with
    | .returned ret => some ret
    | _ => none)

end Pnl.CronFunc
