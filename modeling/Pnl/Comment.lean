import Mathlib.Data.UInt
import Mathlib.Logic.Function.Basic

/-!
# Comments

`new_comment` of `TP_02/EXO-05` allocates a `struct comment` and one block for each of its three
texts, one after the other. A heap is what is at each allocated address, and a use of any other
address, `NULL` included, has no result.
-/

namespace Pnl.Comments

abbrev Addr := Nat

def null : Addr := 0

/-- `struct comment`, where a field that was not stored to is `none`. -/
structure Comment where
  titleSize : Option Int32 := none
  title : Option Addr := none
  authorSize : Option Int32 := none
  author : Option Addr := none
  textSize : Option Int32 := none
  text : Option Addr := none
deriving DecidableEq, Repr

/-- What `malloc` allocated: a comment, or bytes, those not stored to being `none`. -/
inductive Block where
  | comment (c : Comment)
  | bytes (contents : List (Option UInt8))
deriving DecidableEq, Repr

structure Heap where
  block : Addr → Option Block

def Heap.put (h : Heap) (p : Addr) (b : Block) : Heap :=
  { block := Function.update h.block p (some b) }

/-- A call of `malloc` that returns `p`, for a block that starts as `b`. -/
def Heap.malloc (h : Heap) (p : Addr) (b : Block) : Heap := if p = null then h else h.put p b

/-- A store to a field of the comment at `c`. -/
def Heap.store (h : Heap) (c : Addr) (f : Comment → Comment) : Option Heap :=
  match h.block c with
  | some (.comment k) => some (h.put c (.comment (f k)))
  | _ => none

def Heap.memcpy (h : Heap) (dest : Addr) (src : List UInt8) (n : Nat) : Option Heap :=
  match h.block dest with
  | some (.bytes contents) =>
      if n ≤ contents.length ∧ n ≤ src.length then
        some (h.put dest (.bytes ((src.take n).map some ++ contents.drop n)))
      else none
  | _ => none

/-- An `int` passed as a `size_t`. -/
def sizeT (size : Int32) : Nat := size.toInt64.toUInt64.toNat

/-- The arguments of `new_comment`, with the bytes that can be read at the pointers. -/
structure Args where
  titleSize : Int32
  title : List UInt8
  authorSize : Int32
  author : List UInt8
  textSize : Int32
  text : List UInt8

/-- What the four calls of `malloc` return. -/
structure Mallocs where
  comment : Addr
  title : Addr
  author : Addr
  text : Addr

/-- The statements of `new_comment` for one of the texts, with the two fields they store to. The
flag says whether the function goes on. -/
def newText (h : Heap) (c malloc : Addr) (size : Int32) (src : List UInt8)
    (setSize : Int32 → Comment → Comment) (setText : Addr → Comment → Comment) :
    Option (Heap × Bool) := do
  let h ← h.store c (setSize size)
  let h := h.malloc malloc (.bytes (List.replicate (sizeT size) none))
  let h ← h.store c (setText malloc)
  if malloc = null then return (h, false)
  let h ← h.memcpy malloc src (sizeT size)
  return (h, true)

/-- `new_comment`, which does not look at what the first `malloc` returns. -/
def newComment (h : Heap) (m : Mallocs) (args : Args) : Option (Heap × Addr) := do
  let c := m.comment
  let h := h.malloc c (.comment {})
  let (h, ok) ← newText h c m.title args.titleSize args.title
    (fun size k => { k with titleSize := some size }) fun p k => { k with title := some p }
  if !ok then return (h, null)
  let (h, ok) ← newText h c m.author args.authorSize args.author
    (fun size k => { k with authorSize := some size }) fun p k => { k with author := some p }
  if !ok then return (h, null)
  let (h, ok) ← newText h c m.text args.textSize args.text
    (fun size k => { k with textSize := some size }) fun p k => { k with text := some p }
  if !ok then return (h, null)
  return (h, c)

end Pnl.Comments
