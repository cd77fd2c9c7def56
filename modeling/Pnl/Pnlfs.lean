import Pnl.Lib.Bytes

/-!
# The format of pnlfs.h

What a reader of a pnlfs partition finds in it. Every field is little-endian, blocks are numbered
from the start of the partition, and the inode store begins at block 1.
-/

namespace Pnl.Pnlfs

open Bytes

def blockSize : Nat := 4096

def inodesPerBlock : Nat := 256

def block (image : List UInt8) (b : Nat) : List UInt8 := slice image (blockSize * b) blockSize

/-- `struct pnlfs_inode`, its fields read. -/
structure Inode where
  mode : Nat
  indexBlock : Nat
  filesize : Nat
  nrUsedBlocks : Nat
deriving DecidableEq, Repr

abbrev Inode.nrEntries (inode : Inode) : Nat := inode.nrUsedBlocks

def Inode.decode (bytes : List UInt8) : Inode :=
  { mode := leAt bytes 0 4
    indexBlock := leAt bytes 4 4
    filesize := leAt bytes 8 4
    nrUsedBlocks := leAt bytes 12 4 }

def Inode.isDir (inode : Inode) : Bool := inode.mode &&& 0xf000 = 0x4000

def Inode.isReg (inode : Inode) : Bool := inode.mode &&& 0xf000 = 0x8000

/-- Inode `k` of a partition, in block `1 + k / 256`. -/
def readInode (image : List UInt8) (k : Nat) : Inode :=
  Inode.decode (slice (block image (1 + k / inodesPerBlock)) (16 * (k % inodesPerBlock)) 16)

structure DirEntry where
  inode : Nat
  filename : List UInt8
deriving DecidableEq, Repr

def readDirEntry (dir : List UInt8) (i : Nat) : DirEntry :=
  { inode := leAt dir (32 * i) 4
    filename := slice dir (32 * i + 4) 28 }

/-- A name ends at its first zero. -/
def DirEntry.name (entry : DirEntry) : List UInt8 := entry.filename.takeWhile (· ≠ 0)

def readIndex (index : List UInt8) (i : Nat) : Nat := leAt index (4 * i) 4

end Pnl.Pnlfs
