import Mathlib.Data.List.Basic
import Mathlib.Data.UInt

/-!
# Counting the dentry hash table

The module of `TP_08/EXO-01` walks the table of the kernel's dentry cache while it is loaded, counts
the entries of each chain and keeps the longest. `entry_size` is set to zero at the end of each turn
only, so the first turn finds in it whatever the stack held.
-/

namespace Pnl.DentryHash

abbrev Dentry := Nat

/-- `dentry_hashtable`: a chain of entries for each of its buckets. -/
structure Table where
  dHashShift : Nat
  shift_lt : dHashShift < 32
  buckets : List (List Dentry)
  length_buckets : buckets.length = 2 ^ dHashShift

/-- `1 << d_hash_shift`, an `int`. -/
def Table.size (t : Table) : Int32 := 1 <<< Int32.ofNat t.dHashShift

structure Locals where
  entrySize : Int32
  cpt : Int32 := 0
  maximum : Int32 := 0
deriving DecidableEq, Repr

/-- `MAX(a, b)`, as it expands on the right of an assignment. -/
def maxOf (a b : Int32) : Int32 := if a > b then a else b

/-- `hlist_bl_for_each_entry`. -/
def countChain (l : Locals) : List Dentry → Locals
  | [] => l
  | _ :: entries => countChain { l with entrySize := l.entrySize + 1, cpt := l.cpt + 1 } entries

/-- A turn of the loop over the buckets. -/
def countBucket (l : Locals) (chain : List Dentry) : Locals :=
  let l := countChain l chain
  let l := { l with maximum := maxOf l.maximum l.entrySize }
  { l with entrySize := 0 }

/-- `hello_init`, for what `entry_size` holds when it starts. The loop compares `i` with the size
as an `int`. -/
def helloInit (t : Table) (entrySize : Int32) : Locals :=
  (t.buckets.take t.size.toNatClampNeg).foldl countBucket { entrySize := entrySize }

end Pnl.DentryHash
