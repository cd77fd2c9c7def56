import Pnl.Lib.Bytes
import Pnl.Lib.CheckedWrites

/-!
# mkfs-pnlfs

`main` opens an image, writes a superblock computed from its size, and then calls four writers that
emit the inode store, the two free maps and the data blocks one after the other. No writer seeks and
none is told where it starts: all they share is the superblock.

Fields are kept as the program keeps them, converted by `htole32` in the host's memory, and a buffer
is the bytes that memory holds.
-/

namespace Pnl.Mkfs

open Bytes Writes

def pnlfsMagic : UInt32 := 0x434F5746

def pnlfsBlockSize : Nat := 4096

def pnlfsFilenameLen : Nat := 28

def pnlfsMaxDirEntries : Nat := 128

def exitSuccess : Int := 0

def exitFailure : Int := 1

/-- `struct pnlfs_inode`. The union of `nr_used_blocks` and `nr_entries` is one word. -/
structure PnlfsInode where
  mode : UInt32 := 0
  indexBlock : UInt32 := 0
  filesize : UInt32 := 0
  nrUsedBlocks : UInt32 := 0
deriving DecidableEq, Repr

abbrev PnlfsInode.nrEntries (inode : PnlfsInode) : UInt32 := inode.nrUsedBlocks

def sizeofPnlfsInode : Nat := 16

def PnlfsInode.bytes (host : ByteOrder) (inode : PnlfsInode) : List UInt8 :=
  host.store 4 inode.mode.toNat ++ host.store 4 inode.indexBlock.toNat
    ++ host.store 4 inode.filesize.toNat ++ host.store 4 inode.nrUsedBlocks.toNat

/-- `struct pnlfs_superblock`, whose padding `memset` leaves zero. -/
structure PnlfsSuperblock where
  magic : UInt32
  nrBlocks : UInt32
  nrInodes : UInt32
  nrIstoreBlocks : UInt32
  nrIfreeBlocks : UInt32
  nrBfreeBlocks : UInt32
  nrFreeInodes : UInt32
  nrFreeBlocks : UInt32
deriving DecidableEq, Repr

def PnlfsSuperblock.bytes (host : ByteOrder) (sb : PnlfsSuperblock) : List UInt8 :=
  host.store 4 sb.magic.toNat ++ host.store 4 sb.nrBlocks.toNat ++ host.store 4 sb.nrInodes.toNat
    ++ host.store 4 sb.nrIstoreBlocks.toNat ++ host.store 4 sb.nrIfreeBlocks.toNat
    ++ host.store 4 sb.nrBfreeBlocks.toNat ++ host.store 4 sb.nrFreeInodes.toNat
    ++ host.store 4 sb.nrFreeBlocks.toNat ++ List.replicate 4064 0

structure PnlfsFile where
  inode : UInt32 := 0
  filename : List UInt8 := List.replicate pnlfsFilenameLen 0
deriving DecidableEq, Repr

def PnlfsFile.bytes (host : ByteOrder) (file : PnlfsFile) : List UInt8 :=
  host.store 4 file.inode.toNat ++ file.filename

/-- `strncpy` into the first `n` bytes of a buffer, padding with zeros. -/
def strncpy (dest src : List UInt8) (n : Nat) : List UInt8 :=
  src.take n ++ List.replicate (n - src.length) 0 ++ dest.drop n

def idivCeil (a b : UInt32) : UInt32 :=
  let ret := a / b
  if a % b ≠ 0 then ret + 1 else ret

/-! ### The superblock -/

def nrInodesOf (nrBlocks : UInt32) : UInt32 :=
  let mod := nrBlocks % 256
  if mod ≠ 0 then nrBlocks + mod else nrBlocks

/-- `nr_blocks`, an `off_t` quotient kept in a `uint32_t`. -/
def nrBlocksOf (stSize : Int64) : UInt32 := (stSize / 4096).toUInt64.toUInt32

/-- The fields `write_superblock` fills in for an image of `stSize` bytes. -/
def fillSuperblock (host : ByteOrder) (stSize : Int64) : PnlfsSuperblock :=
  let nrBlocks := nrBlocksOf stSize
  let nrInodes := nrInodesOf nrBlocks
  let nrIstoreBlocks := idivCeil nrInodes 256
  let nrIfreeBlocks := idivCeil nrInodes (4096 * 8)
  let nrBfreeBlocks := idivCeil nrBlocks (4096 * 8)
  let nrDataBlocks := nrBlocks - 1 - nrIstoreBlocks - nrIfreeBlocks - nrBfreeBlocks
  { magic := htole32 host pnlfsMagic
    nrBlocks := htole32 host nrBlocks
    nrInodes := htole32 host nrInodes
    nrIstoreBlocks := htole32 host nrIstoreBlocks
    nrIfreeBlocks := htole32 host nrIfreeBlocks
    nrBfreeBlocks := htole32 host nrBfreeBlocks
    nrFreeInodes := htole32 host (nrInodes - 2)
    nrFreeBlocks := htole32 host (nrDataBlocks - 3) }

/-- `write_superblock`, which returns `NULL` when `malloc` or the write fails. -/
def writeSuperblock (host : ByteOrder) (dev : Device) (malloc : Bool) (stSize : Int64) (fd : Fd) :
    Fd × Option PnlfsSuperblock :=
  if malloc then
    let sb := fillSuperblock host stSize
    let (fd, ret) := fd.write dev (sb.bytes host)
    if ret ≠ pnlfsBlockSize then (fd, none) else (fd, some sb)
  else (fd, none)

/-! ### The inode store -/

/-- `S_IFDIR | 0775`. -/
def rootMode : UInt32 :=
  0x4000 ||| (0x100 ||| 0x20 ||| 0x4) ||| (0x80 ||| 0x10) ||| (0x40 ||| 0x8 ||| 0x1)

/-- `S_IFREG | 0666`. -/
def fooMode : UInt32 := 0x8000 ||| (0x100 ||| 0x20 ||| 0x4) ||| (0x80 ||| 0x10 ||| 0x2)

def rootInode (host : ByteOrder) (firstDataBlock : UInt32) : PnlfsInode :=
  { mode := htole32 host rootMode
    indexBlock := htole32 host firstDataBlock
    filesize := htole32 host 4096
    nrUsedBlocks := htole32 host 1 }

def fooInode (host : ByteOrder) (firstDataBlock : UInt32) : PnlfsInode :=
  { mode := htole32 host fooMode
    indexBlock := htole32 host firstDataBlock
    filesize := htole32 host 4
    nrUsedBlocks := htole32 host 1 }

/-- `write_inode_store`. The loop's `int i` is compared as a `uint32_t`, so it counts 2 up to
`nr_inodes` through all 32 bits. -/
def writeInodeStore (host : ByteOrder) (dev : Device) (sb : PnlfsSuperblock) (fd : Fd) : Fd × Int :=
  let firstDataBlock := 1 + le32toh host sb.nrBfreeBlocks + le32toh host sb.nrIfreeBlocks
    + le32toh host sb.nrIstoreBlocks
  let (fd, ret) := fd.write dev ((rootInode host firstDataBlock).bytes host)
  if ret ≠ sizeofPnlfsInode then (fd, -1) else
  let (fd, ret) := fd.write dev ((fooInode host (firstDataBlock + 1)).bytes host)
  if ret ≠ sizeofPnlfsInode then (fd, -1) else
  let inode : PnlfsInode := {}
  let (fd, ok) := fd.writeTimes dev (inode.bytes host) ((le32toh host sb.nrInodes).toNat - 2)
  if ok then (fd, 0) else (fd, -1)

/-! ### The free maps -/

def wordBytes (host : ByteOrder) (words : List UInt64) : List UInt8 :=
  words.flatMap fun word => host.store 8 word.toNat

def allFree : List UInt64 := List.replicate 512 0xffffffffffffffff

def writeIfreeBlocks (host : ByteOrder) (dev : Device) (sb : PnlfsSuperblock) (fd : Fd) :
    Fd × Int :=
  let ifree := allFree.set 0 (htole64 host 0xfffffffffffffffc)
  let (fd, ret) := fd.write dev (wordBytes host ifree)
  if ret ≠ pnlfsBlockSize then (fd, -1) else
  let ifree := ifree.set 0 0xffffffffffffffff
  let (fd, ok) := fd.writeTimes dev (wordBytes host ifree) ((le32toh host sb.nrIfreeBlocks).toNat - 1)
  if ok then (fd, 0) else (fd, -1)

/-- The `for` over the mask, which clears one bit a turn until the mask is shifted out or nothing is
left to clear; `turns` bounds it. -/
def clearLine : (turns : Nat) → (mask line : UInt64) → (nrUsed : UInt32) → UInt64 × UInt32
  | 0, _, line, nrUsed => (line, nrUsed)
  | turns + 1, mask, line, nrUsed =>
      if mask = 0 then (line, nrUsed) else
      let line := line &&& ~~~mask
      let nrUsed := nrUsed - 1
      if nrUsed = 0 then (line, nrUsed) else clearLine turns (mask <<< 1) line nrUsed

/-- The `while (nr_used)` that fills `bfree[i]`, `bfree[i + 1]`, ... The array has `slots` elements
from `i` on, and a store past them is undefined behaviour. -/
def clearUsed (host : ByteOrder) :
    (slots i : Nat) → (nrUsed : UInt32) → (bfree : List UInt64) → Option (List UInt64)
  | 0, _, nrUsed, bfree => if nrUsed = 0 then some bfree else none
  | slots + 1, i, nrUsed, bfree =>
      if nrUsed = 0 then some bfree else
      let (line, nrUsed) := clearLine 64 1 0xffffffffffffffff nrUsed
      clearUsed host slots (i + 1) nrUsed (bfree.set i (htole64 host line))

def nrUsedOf (host : ByteOrder) (sb : PnlfsSuperblock) : UInt32 :=
  le32toh host sb.nrIstoreBlocks + le32toh host sb.nrIfreeBlocks + le32toh host sb.nrBfreeBlocks + 4

/-- `write_bfree_blocks`; `none` when it overruns its buffer. -/
def writeBfreeBlocks (host : ByteOrder) (dev : Device) (sb : PnlfsSuperblock) (fd : Fd) :
    Fd × Option Int :=
  match clearUsed host 512 0 (nrUsedOf host sb) allFree with
  | none => (fd, none)
  | some bfree =>
      let (fd, ret) := fd.write dev (wordBytes host bfree)
      if ret ≠ pnlfsBlockSize then (fd, some (-1)) else
      let (fd, ok) :=
        fd.writeTimes dev (wordBytes host allFree) ((le32toh host sb.nrBfreeBlocks).toNat - 1)
      -- unlike the first block, a later one reports through `errno`
      if ok then (fd, some 0) else (fd, some fd.errno)

/-! ### The data blocks -/

def rootBlock (host : ByteOrder) : List PnlfsFile :=
  let empty : PnlfsFile := {}
  (List.replicate pnlfsMaxDirEntries empty).set 0
    { inode := htole32 host 1, filename := strncpy empty.filename (ascii ['f', 'o', 'o']) 28 }

def fooBlock (host : ByteOrder) (firstBlock : UInt32) : List UInt32 :=
  (List.replicate (pnlfsBlockSize / 4) 0).set 0 (htole32 host firstBlock)

def fooData : List UInt8 :=
  strncpy (List.replicate pnlfsBlockSize 0) (ascii ['f', 'o', 'o', '\n']) 4

def dirBlockBytes (host : ByteOrder) (files : List PnlfsFile) : List UInt8 :=
  files.flatMap (PnlfsFile.bytes host)

def indexBlockBytes (host : ByteOrder) (blocks : List UInt32) : List UInt8 :=
  blocks.flatMap fun block => host.store 4 block.toNat

def writeDataBlocks (host : ByteOrder) (dev : Device) (sb : PnlfsSuperblock) (fd : Fd) : Fd × Int :=
  let firstBlock := le32toh host sb.nrIstoreBlocks + le32toh host sb.nrIfreeBlocks
    + le32toh host sb.nrBfreeBlocks + 3
  let (fd, ret) := fd.write dev (dirBlockBytes host (rootBlock host))
  if ret ≠ pnlfsBlockSize then (fd, fd.errno) else
  let (fd, ret) := fd.write dev (indexBlockBytes host (fooBlock host firstBlock))
  if ret ≠ pnlfsBlockSize then (fd, fd.errno) else
  let (fd, ret) := fd.write dev fooData
  if ret ≠ pnlfsBlockSize then (fd, fd.errno) else (fd, 0)

/-! ### The program -/

/-- What `main` runs in: its host, its arguments, and what the system calls before the first write
answer. -/
structure Env where
  host : ByteOrder
  argc : Int
  openRet : Int
  fstatRet : Int
  stSize : Int64
  malloc : Bool
  dev : Device

def minSize : Int64 := 100 * 4096

/-- `main`, from the opened file to its exit code; `none` when its behaviour is undefined. -/
def main (env : Env) (fd : Fd) : Fd × Option Int :=
  if env.argc ≠ 2 then (fd, some exitFailure) else
  if env.openRet = -1 then (fd, some exitFailure) else
  if env.fstatRet ≠ 0 then (fd, some exitFailure) else
  if env.stSize ≤ minSize then (fd, some exitFailure) else
  match writeSuperblock env.host env.dev env.malloc env.stSize fd with
  | (fd, none) => (fd, some exitFailure)
  | (fd, some sb) =>
      let (fd, ret) := writeInodeStore env.host env.dev sb fd
      if ret ≠ 0 then (fd, some exitFailure) else
      let (fd, ret) := writeIfreeBlocks env.host env.dev sb fd
      if ret ≠ 0 then (fd, some exitFailure) else
      match writeBfreeBlocks env.host env.dev sb fd with
      | (fd, none) => (fd, none)
      | (fd, some ret) =>
          if ret ≠ 0 then (fd, some exitFailure) else
          let (fd, ret) := writeDataBlocks env.host env.dev sb fd
          if ret ≠ 0 then (fd, some exitFailure) else (fd, some exitSuccess)

def Env.Accepts (env : Env) : Prop :=
  env.argc = 2 ∧ env.openRet ≠ -1 ∧ env.fstatRet = 0 ∧ minSize < env.stSize

instance (env : Env) : Decidable env.Accepts := inferInstanceAs (Decidable (_ ∧ _ ∧ _ ∧ _))

end Pnl.Mkfs
