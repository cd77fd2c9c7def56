import Pnl.Lib.Bytes
import Pnl.Lib.CStrings

/-!
# A new name for the kernel

`uname_module.c` of `TP_04` saves the string in `init_uts_ns.name.sysname` when it is loaded, writes
its parameter `my_name` over it, and writes the saved string back when it is unloaded. The fields of
`init_uts_ns.name` stand one behind the other, and none of the copies looks at the size of what it
writes to.
-/

namespace Pnl.UnameModule

open Bytes CStrings

/-- `__NEW_UTS_LEN`. -/
def newUtsLen : Nat := 64

/-- The fields of `struct new_utsname`. -/
inductive Field
  | sysname | nodename | release | version | machine | domainname
deriving DecidableEq, Repr

def Field.index : Field → Nat
  | .sysname => 0
  | .nodename => 1
  | .release => 2
  | .version => 3
  | .machine => 4
  | .domainname => 5

/-- Where `init_uts_ns.name` and the module's `char save[__NEW_UTS_LEN + 1]` stand. -/
structure Layout where
  name : Nat
  save : Nat
  saveApart : save + (newUtsLen + 1) ≤ name ∨ name + 6 * (newUtsLen + 1) ≤ save

def Layout.field (l : Layout) (f : Field) : Nat := l.name + f.index * (newUtsLen + 1)

/-- What `my_name` is if it is not given. -/
def defaultKernelName : List UInt8 :=
  ascii ['m', '_', 'a', 'r', 'c', 'h', '-', 'a', 'l', 'a', 'i', 'n']

/-- `hello_init`, where `turns` bounds each of its copies. -/
def helloInit (l : Layout) (turns kernelName : Nat) (m : Memory) : Option (Memory × Int32) := do
  -- save
  let m ← strcpy turns m l.save (l.field .sysname)
  -- change
  let m ← strcpy turns m (l.field .sysname) kernelName
  return (m, 0)

def helloExit (l : Layout) (turns : Nat) (m : Memory) : Option Memory :=
  -- restore
  strcpy turns m (l.field .sysname) l.save

end Pnl.UnameModule
