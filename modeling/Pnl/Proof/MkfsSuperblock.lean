import Pnl.Proof.MkfsFreeMap
import Mathlib.Tactic.NormNum

/-!
# The counts of the superblock

The counts as natural numbers. The number of blocks is a 64-bit quotient cut to 32 bits, and
`nr_inodes` is that number plus its own remainder modulo 256: rounding up would have added what the
remainder lacks, so the sum is a multiple of 256 only when the remainder is 0 or 128.
-/

namespace Pnl.Mkfs

open Bytes

section Counts

variable (host : ByteOrder) (sb : PnlfsSuperblock)

def PnlfsSuperblock.blocks : Nat := (le32toh host sb.nrBlocks).toNat

def PnlfsSuperblock.inodes : Nat := (le32toh host sb.nrInodes).toNat

def PnlfsSuperblock.istoreBlocks : Nat := (le32toh host sb.nrIstoreBlocks).toNat

def PnlfsSuperblock.ifreeBlocks : Nat := (le32toh host sb.nrIfreeBlocks).toNat

def PnlfsSuperblock.bfreeBlocks : Nat := (le32toh host sb.nrBfreeBlocks).toNat

def PnlfsSuperblock.freeInodes : Nat := (le32toh host sb.nrFreeInodes).toNat

def PnlfsSuperblock.freeBlocks : Nat := (le32toh host sb.nrFreeBlocks).toNat

def PnlfsSuperblock.firstData : Nat :=
  1 + sb.istoreBlocks host + sb.ifreeBlocks host + sb.bfreeBlocks host

variable {host sb}

theorem toNat_firstDataBlockOf (h : sb.firstData host < 2 ^ 32) :
    (firstDataBlockOf host sb).toNat = sb.firstData host := by
  simp only [PnlfsSuperblock.firstData, PnlfsSuperblock.istoreBlocks, PnlfsSuperblock.ifreeBlocks,
    PnlfsSuperblock.bfreeBlocks] at h ⊢
  simp only [firstDataBlockOf, UInt32.toNat_add, show (1 : UInt32).toNat = 1 from rfl]
  omega

theorem toNat_nrUsedOf (h : sb.firstData host + 3 < 2 ^ 32) :
    (nrUsedOf host sb).toNat = sb.firstData host + 3 := by
  simp only [PnlfsSuperblock.firstData, PnlfsSuperblock.istoreBlocks, PnlfsSuperblock.ifreeBlocks,
    PnlfsSuperblock.bfreeBlocks] at h ⊢
  simp only [nrUsedOf, UInt32.toNat_add, show (4 : UInt32).toNat = 4 from rfl]
  omega

end Counts

/-! ### The arithmetic of `write_superblock` -/

/-- The counts of an image of `quot` blocks: blocks, inodes, and the blocks of the inode store and
of the two free maps. -/
structure Counts (quot b n i f g : Nat) : Prop where
  blocks : b = quot % 2 ^ 32
  inodes : n = (b + b % 256) % 2 ^ 32
  istore : i = (n + 255) / 256
  ifree : f = (n + 32767) / 32768
  bfree : g = (b + 32767) / 32768

section Counts

variable {quot b n i f g : Nat} (h : Counts quot b n i f g)

include h

/-- Nothing wraps before the number of inodes does. -/
theorem Counts.exact (hmin : 100 ≤ quot) (hmax : quot < 2 ^ 32 - 128) :
    b = quot ∧ n = b + b % 256 ∧ 1 + i + f + g + 3 ≤ b := by
  obtain ⟨hblocks, hinodes, histore, hifree, hbfree⟩ := h
  have hquot : b = quot := by omega
  have hsum : n = b + b % 256 := by omega
  refine ⟨hquot, hsum, ?_⟩
  omega

/-- The blocks in use grow with the image, but for the inodes that rounding adds. -/
theorem Counts.fit_iff (hmin : 100 ≤ quot) (hmax : quot < 2 ^ 32) :
    1 + i + f + g + 3 ≤ 32768 ↔ quot ≤ 8257920 ∨ quot = 8258048 := by
  obtain ⟨hblocks, hinodes, histore, hifree, hbfree⟩ := h
  have hquot : b = quot := by omega
  constructor
  · intro hfit
    have hsum : n = b + b % 256 := by omega
    omega
  · intro hquot
    have hsum : n = b + b % 256 := by omega
    omega

end Counts

theorem toNat_idivCeil (a : UInt32) {b : UInt32} (hb : 2 ≤ b.toNat) :
    (idivCeil a b).toNat = (a.toNat + b.toNat - 1) / b.toNat := by
  have hdiv : (a / b).toNat = a.toNat / b.toNat := UInt32.toNat_div a b
  have hmod : (a % b).toNat = a.toNat % b.toNat := UInt32.toNat_mod a b
  have ha := a.toNat_lt
  have hsplit := Nat.div_add_mod a.toNat b.toNat
  have hrest := Nat.mod_lt a.toNat (show 0 < b.toNat by omega)
  have hhalf : a.toNat / b.toNat ≤ a.toNat / 2 := Nat.div_le_div_left hb (by omega)
  unfold idivCeil
  by_cases hzero : a % b = 0
  · have hrem : a.toNat % b.toNat = 0 := by
      rw [← hmod, hzero]
      rfl
    rw [if_neg (by simpa using hzero), hdiv]
    symm
    apply Nat.div_eq_of_lt_le
    · rw [Nat.mul_comm]
      omega
    · rw [Nat.add_mul, Nat.mul_comm]
      omega
  · have hrem : a.toNat % b.toNat ≠ 0 := by
      intro h
      apply hzero
      apply UInt32.toNat_inj.mp
      rw [hmod, h]
      rfl
    rw [if_pos hzero, UInt32.toNat_add, hdiv, show (1 : UInt32).toNat = 1 from rfl,
      Nat.mod_eq_of_lt (by omega)]
    symm
    apply Nat.div_eq_of_lt_le
    · rw [Nat.add_mul, Nat.mul_comm]
      omega
    · rw [Nat.add_mul, Nat.add_mul, Nat.mul_comm]
      omega

theorem toNat_nrInodesOf (n : UInt32) :
    (nrInodesOf n).toNat = (n.toNat + n.toNat % 256) % 2 ^ 32 := by
  have hmod : (n % 256).toNat = n.toNat % 256 := UInt32.toNat_mod n 256
  have hn := n.toNat_lt
  unfold nrInodesOf
  dsimp only
  split
  · rw [UInt32.toNat_add, hmod]
  · next hzero =>
      have hrem : n.toNat % 256 = 0 := by
        rw [← hmod, not_not.mp hzero]
        rfl
      rw [hrem]
      omega

theorem toNat_nrBlocksOf {stSize : Int64} (h : minSize < stSize) :
    (nrBlocksOf stSize).toNat = stSize.toInt.toNat / 4096 % 2 ^ 32 := by
  have hpos : (0 : Int) ≤ stSize.toInt := by
    have := Int64.lt_iff_toInt_lt.mp h
    have hmin : minSize.toInt = 409600 := by decide
    omega
  have hquot : (stSize / 4096).toInt = stSize.toInt / 4096 := by
    rw [Int64.toInt_div_of_ne_right _ _ (by decide),
      show (4096 : Int64).toInt = 4096 from by decide, Int.tdiv_eq_ediv_of_nonneg hpos]
  have hnonneg : (0 : Int64) ≤ stSize / 4096 := by
    apply Int64.le_iff_toInt_le.mpr
    rw [hquot, show (0 : Int64).toInt = 0 from by decide]
    omega
  rw [nrBlocksOf, UInt64.toNat_toUInt32, Int64.toNat_toUInt64_of_le hnonneg, ← Int64.toNat_toInt,
    hquot]
  congr 1
  omega

theorem toInt_of_minSize_lt {stSize : Int64} (h : minSize < stSize) : 409600 < stSize.toInt := by
  have := Int64.lt_iff_toInt_lt.mp h
  have hmin : minSize.toInt = 409600 := by decide
  omega

section Fill

variable (host : ByteOrder) {stSize : Int64} (h : minSize < stSize)

include h

theorem blocks_fillSuperblock :
    (fillSuperblock host stSize).blocks host = stSize.toInt.toNat / 4096 % 2 ^ 32 := by
  rw [PnlfsSuperblock.blocks, fillSuperblock, le32toh_htole32, toNat_nrBlocksOf h]

theorem inodes_fillSuperblock :
    (fillSuperblock host stSize).inodes host
      = ((fillSuperblock host stSize).blocks host
        + (fillSuperblock host stSize).blocks host % 256) % 2 ^ 32 := by
  rw [blocks_fillSuperblock host h, PnlfsSuperblock.inodes, fillSuperblock, le32toh_htole32,
    toNat_nrInodesOf, toNat_nrBlocksOf h]

omit h in
theorem istoreBlocks_fillSuperblock (stSize : Int64) :
    (fillSuperblock host stSize).istoreBlocks host
      = ((fillSuperblock host stSize).inodes host + 255) / 256 := by
  simp only [PnlfsSuperblock.inodes, PnlfsSuperblock.istoreBlocks, fillSuperblock, le32toh_htole32]
  rw [toNat_idivCeil _ (by decide), show (256 : UInt32).toNat = 256 from rfl]
  omega

omit h in
theorem ifreeBlocks_fillSuperblock (stSize : Int64) :
    (fillSuperblock host stSize).ifreeBlocks host
      = ((fillSuperblock host stSize).inodes host + 32767) / 32768 := by
  simp only [PnlfsSuperblock.inodes, PnlfsSuperblock.ifreeBlocks, fillSuperblock, le32toh_htole32]
  rw [toNat_idivCeil _ (by decide), show (4096 * 8 : UInt32).toNat = 32768 from rfl]
  omega

omit h in
theorem bfreeBlocks_fillSuperblock (stSize : Int64) :
    (fillSuperblock host stSize).bfreeBlocks host
      = ((fillSuperblock host stSize).blocks host + 32767) / 32768 := by
  simp only [PnlfsSuperblock.blocks, PnlfsSuperblock.bfreeBlocks, fillSuperblock, le32toh_htole32]
  rw [toNat_idivCeil _ (by decide), show (4096 * 8 : UInt32).toNat = 32768 from rfl]
  omega

theorem counts_fillSuperblock :
    Counts (stSize.toInt.toNat / 4096) ((fillSuperblock host stSize).blocks host)
      ((fillSuperblock host stSize).inodes host) ((fillSuperblock host stSize).istoreBlocks host)
      ((fillSuperblock host stSize).ifreeBlocks host)
      ((fillSuperblock host stSize).bfreeBlocks host) where
  blocks := blocks_fillSuperblock host h
  inodes := inodes_fillSuperblock host h
  istore := istoreBlocks_fillSuperblock host stSize
  ifree := ifreeBlocks_fillSuperblock host stSize
  bfree := bfreeBlocks_fillSuperblock host stSize

omit h in
theorem freeInodes_fillSuperblock (stSize : Int64) :
    (fillSuperblock host stSize).freeInodes host
      = ((fillSuperblock host stSize).inodes host + (2 ^ 32 - 2)) % 2 ^ 32 := by
  simp only [PnlfsSuperblock.inodes, PnlfsSuperblock.freeInodes, fillSuperblock, le32toh_htole32]
  rw [UInt32.toNat_sub, show (2 : UInt32).toNat = 2 from rfl]
  omega

/-- The chain of unsigned subtractions takes away the blocks in use, whatever wraps on the way. -/
theorem freeBlocks_fillSuperblock :
    ((fillSuperblock host stSize).freeBlocks host
        + ((fillSuperblock host stSize).firstData host + 3)) % 2 ^ 32
      = (fillSuperblock host stSize).blocks host := by
  have hblocks := blocks_fillSuperblock host h
  simp only [PnlfsSuperblock.firstData, PnlfsSuperblock.blocks, PnlfsSuperblock.istoreBlocks,
    PnlfsSuperblock.ifreeBlocks, PnlfsSuperblock.bfreeBlocks, PnlfsSuperblock.freeBlocks,
    fillSuperblock, le32toh_htole32, UInt32.toNat_sub, show (1 : UInt32).toNat = 1 from rfl,
    show (3 : UInt32).toNat = 3 from rfl] at hblocks ⊢
  have h1 := (nrBlocksOf stSize).toNat_lt
  have h2 := (idivCeil (nrInodesOf (nrBlocksOf stSize)) 256).toNat_lt
  have h3 := (idivCeil (nrInodesOf (nrBlocksOf stSize)) (4096 * 8)).toNat_lt
  have h4 := (idivCeil (nrBlocksOf stSize) (4096 * 8)).toNat_lt
  omega

/-- `nr_used` never wraps: the three regions of a 32-bit image are far from 2^32 blocks. -/
theorem firstData_fillSuperblock_lt : (fillSuperblock host stSize).firstData host < 2 ^ 25 := by
  have hi := inodes_fillSuperblock host h
  have hb := blocks_fillSuperblock host h
  rw [PnlfsSuperblock.firstData, istoreBlocks_fillSuperblock, ifreeBlocks_fillSuperblock,
    bfreeBlocks_fillSuperblock]
  omega

end Fill

end Pnl.Mkfs
