import Mathlib.Data.UInt
import Mathlib.Logic.Function.Basic
import Pnl.Lib.Bytes

/-!
# Stamping superblocks

`update_sb2.c` of `TP_04` goes through the superblocks of a file system type each time it is loaded,
gives a date to those that have none and prints them. The date is a field that was added to the
kernel's `struct super_block`; a superblock without one is recognised by a field of the date that is
zero.
-/

namespace Pnl.UpdateSb2

open Bytes

abbrev Addr := Nat

structure Timespec where
  tvSec : Int64
  tvNsec : Int64
deriving DecidableEq, Repr

structure SuperBlock where
  sUuid : Fin 16 → UInt8
  date : Timespec
  /-- `s_type->name`. -/
  typeName : List UInt8

structure State where
  superBlock : Addr → SuperBlock

/-- `get_fs_type`, up to the superblocks on the list of the type. -/
abbrev FsTypes := (name : List UInt8) → Option (List Addr)

/-! ### Printing -/

/-- `%.2x`. -/
def hexByte (b : UInt8) : List UInt8 :=
  ascii [Nat.digitChar (b.toNat / 16), Nat.digitChar (b.toNat % 16)]

def uuidText (sUuid : Fin 16 → UInt8) : List UInt8 :=
  (ascii [' ']).intercalate
    ([[0, 1, 2, 3], [4, 5], [6, 7], [8, 9], [10, 11], [12, 13, 14, 15]].map fun group =>
      group.flatMap fun i => hexByte (sUuid i))

/-- `"uuid= %.2x%.2x%.2x%.2x %.2x%.2x [...] temps=%ld.%ld type=%s\n"`. -/
def myPrintBlock (sb : SuperBlock) : List UInt8 :=
  ascii ['u', 'u', 'i', 'd', '=', ' '] ++ uuidText sb.sUuid
    ++ ascii [' ', 't', 'e', 'm', 'p', 's', '='] ++ signedDecimal sb.date.tvSec.toInt
    ++ ascii ['.'] ++ signedDecimal sb.date.tvNsec.toInt
    ++ ascii [' ', 't', 'y', 'p', 'e', '='] ++ sb.typeName ++ ascii ['\n']

/-! ### Stamping -/

/-- `block_stamp`, where `now` is what `getnstimeofday` says if it is called: the superblock and
what is printed. -/
def blockStamp (now : Timespec) (sb : SuperBlock) : SuperBlock × List UInt8 :=
  let sb := if sb.date.tvNsec = 0 ∨ sb.date.tvSec = 0 then { sb with date := now } else sb
  (sb, myPrintBlock sb)

/-- A call of `block_stamp`. -/
structure Pass where
  sb : Addr
  now : Timespec

/-- `iterate_supers_type`, with the calls it makes: what they print, in order. -/
def iterateSupersType (s : State) : List Pass → State × List (List UInt8)
  | [] => (s, [])
  | pass :: passes =>
      let (sb, line) := blockStamp pass.now (s.superBlock pass.sb)
      let s := { s with superBlock := Function.update s.superBlock pass.sb sb }
      let (s, lines) := iterateSupersType s passes
      (s, line :: lines)

/-- A load of the module; `clock k` is the time at the `k`-th superblock. -/
structure Load where
  myType : List UInt8
  clock : Nat → Timespec

def Load.passes (types : FsTypes) (load : Load) : Option (List Pass) :=
  (types load.myType).map fun sbs => sbs.mapIdx fun k sb => { sb := sb, now := load.clock k }

/-- `hello_init`; it does not return from an unknown type, for which `iterate_supers_type` gets
`NULL`. -/
def helloInit (types : FsTypes) (s : State) (load : Load) : State × Option (List (List UInt8)) :=
  match load.passes types with
  | none => (s, none)
  | some passes =>
      let (s, lines) := iterateSupersType s passes
      (s, some lines)

end Pnl.UpdateSb2
