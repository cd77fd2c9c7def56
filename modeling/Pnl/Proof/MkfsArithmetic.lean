import Pnl.Lib.Loops
import Pnl.Proof.MkfsGeometry

/-!
# How large an image mkfs can make

The counts of the superblock are 32 bits wide, and nothing but the lower limit in `main` bounds what
they are computed from. The arithmetic is right up to the size at which adding the remainder to the
number of inodes wraps. Long before that the blocks in use outgrow the one map block that
`write_bfree_blocks` has room for.
-/

namespace Pnl.Mkfs

open Bytes Loops

/-! ### The superblock -/

/-- `nr_data_blocks`, which `write_superblock` keeps to itself. -/
def nrDataBlocksOf (stSize : Int64) : UInt32 :=
  let nrBlocks := nrBlocksOf stSize
  let nrInodes := nrInodesOf nrBlocks
  nrBlocks - 1 - idivCeil nrInodes 256 - idivCeil nrInodes (4096 * 8) - idivCeil nrBlocks (4096 * 8)

theorem nrFreeBlocks_fillSuperblock (host : ByteOrder) (stSize : Int64) :
    (fillSuperblock host stSize).nrFreeBlocks = htole32 host (nrDataBlocksOf stSize - 3) := rfl

def dataBlocks (stSize : Int64) : Nat := (nrDataBlocksOf stSize).toNat

/-- No computation of `write_superblock` wraps. -/
structure CountsExact (host : ByteOrder) (sb : PnlfsSuperblock) (stSize : Int64) : Prop where
  blocks : (sb.blocks host : Int) = stSize.toInt / 4096
  inodes : sb.inodes host = sb.blocks host + sb.blocks host % 256
  blocks_le : sb.blocks host ≤ sb.inodes host
  regions : 1 + sb.istoreBlocks host + sb.ifreeBlocks host + sb.bfreeBlocks host
    + dataBlocks stSize = sb.blocks host
  data : 3 ≤ dataBlocks stSize
  freeBlocks : sb.freeBlocks host = dataBlocks stSize - 3
  two_le : 2 ≤ sb.inodes host
  freeInodes : sb.freeInodes host = sb.inodes host - 2

section Data

variable (host : ByteOrder) {stSize : Int64} (h : minSize < stSize)

include h

omit h in
theorem freeBlocks_eq_dataBlocks :
    (fillSuperblock host stSize).freeBlocks host = (dataBlocks stSize + (2 ^ 32 - 3)) % 2 ^ 32 := by
  rw [PnlfsSuperblock.freeBlocks, nrFreeBlocks_fillSuperblock, le32toh_htole32, UInt32.toNat_sub,
    show (3 : UInt32).toNat = 3 from rfl, dataBlocks]
  omega

theorem dataBlocks_add_firstData :
    (dataBlocks stSize + (fillSuperblock host stSize).firstData host) % 2 ^ 32
      = (fillSuperblock host stSize).blocks host := by
  have hfree := freeBlocks_fillSuperblock host h
  rw [freeBlocks_eq_dataBlocks] at hfree
  omega

theorem stSize_blocks : 100 ≤ stSize.toInt.toNat / 4096 := by
  have hmin := toInt_of_minSize_lt h
  omega

/-- **The superblock is computed right exactly below 2^44 - 2^19 bytes.** -/
theorem countsExact_iff :
    CountsExact host (fillSuperblock host stSize) stSize ↔ stSize.toInt < 2 ^ 44 - 2 ^ 19 := by
  have hmin := toInt_of_minSize_lt h
  have hcounts := counts_fillSuperblock host h
  constructor
  · intro hexact
    have hblocks := hcounts.blocks
    have hinodes := hcounts.inodes
    have hquot := hexact.blocks
    have hsum := hexact.inodes
    omega
  · intro hsize
    obtain ⟨hquot, hsum, hinside⟩ := hcounts.exact (stSize_blocks h) (by omega)
    have hdata := dataBlocks_add_firstData host h
    rw [PnlfsSuperblock.firstData] at hdata
    have hlt : dataBlocks stSize < 2 ^ 32 := UInt32.toNat_lt _
    have hregions : 1 + (fillSuperblock host stSize).istoreBlocks host
        + (fillSuperblock host stSize).ifreeBlocks host
        + (fillSuperblock host stSize).bfreeBlocks host + dataBlocks stSize
        = (fillSuperblock host stSize).blocks host := by omega
    have hfreeInodes := freeInodes_fillSuperblock host stSize
    have hmin' := stSize_blocks h
    constructor
    · omega
    · exact hsum
    · omega
    · exact hregions
    · omega
    · rw [freeBlocks_eq_dataBlocks]
      omega
    · omega
    · omega

end Data

theorem countsExact_makefileImage :
    CountsExact .little (fillSuperblock .little 31457280) 31457280 :=
  (countsExact_iff .little (by decide)).mpr (by decide)

/-- The number of inodes is 2^32, kept as 0. -/
theorem not_countsExact_hugeImage :
    minSize < 17592185520128
      ∧ ¬ CountsExact .little (fillSuperblock .little 17592185520128) 17592185520128 := by
  refine ⟨by decide, fun hexact => ?_⟩
  exact absurd hexact.blocks_le (by decide)

/-! ### The loop of `write_bfree_blocks` -/

/-- The variables of the loop, with the indices it stored at. -/
structure Marking where
  i : Nat := 0
  nrUsed : UInt32
  stored : List Nat := []

/-- One turn of `while (nr_used)`. -/
def markLine (s : Marking) : Option Marking :=
  some
    { i := s.i + 1
      nrUsed := (clearLine 64 1 0xffffffffffffffff s.nrUsed).2
      stored := s.stored ++ [s.i] }

/-- The loop ends, and it stored to elements of the array only. -/
def StaysInBuffer (host : ByteOrder) (sb : PnlfsSuperblock) : Prop :=
  ∃ s, Ends (fun s : Marking => s.nrUsed ≠ 0) markLine { nrUsed := nrUsedOf host sb } s
    ∧ ∀ i ∈ s.stored, i < 512

/-- The loop goes through the lines that the blocks in use take. -/
theorem marking_reaches (lines : Nat) (s : Marking) (hlines : lines = (s.nrUsed.toNat + 63) / 64) :
    Reaches (fun s : Marking => s.nrUsed ≠ 0) markLine s
      { i := s.i + lines, nrUsed := 0, stored := s.stored ++ List.range' s.i lines } := by
  induction lines generalizing s with
  | zero =>
      have hzero : s.nrUsed = 0 := by
        apply UInt32.toNat_inj.mp
        change s.nrUsed.toNat = 0
        omega
      obtain ⟨i, nrUsed, stored⟩ := s
      obtain rfl : nrUsed = 0 := hzero
      simpa using Reaches.refl (Marking.mk i 0 stored)
  | succ lines ih =>
      have hne : s.nrUsed ≠ 0 := by
        intro hzero
        rw [hzero] at hlines
        exact absurd hlines (by simp)
      obtain ⟨hleft, -⟩ := clearLine_word hne
      have hturn := ih
        { i := s.i + 1
          nrUsed := (clearLine 64 1 0xffffffffffffffff s.nrUsed).2
          stored := s.stored ++ [s.i] } (by rw [hleft]; omega)
      have hindices : s.stored ++ [s.i] ++ List.range' (s.i + 1) lines
          = s.stored ++ List.range' s.i (lines + 1) := by
        rw [List.append_assoc, List.singleton_append, List.range'_succ]
      rw [hindices, Nat.add_assoc, Nat.add_comm 1] at hturn
      refine Reaches.trans (Reaches.turn ?_ rfl) hturn
      exact decide_eq_true hne

theorem marking_ends (nrUsed : UInt32) :
    Ends (fun s : Marking => s.nrUsed ≠ 0) markLine { nrUsed := nrUsed }
      { i := (nrUsed.toNat + 63) / 64, nrUsed := 0,
        stored := List.range' 0 ((nrUsed.toNat + 63) / 64) } := by
  have hreaches := marking_reaches ((nrUsed.toNat + 63) / 64) { nrUsed := nrUsed } rfl
  simp only [Nat.zero_add, List.nil_append] at hreaches
  exact hreaches.ends (by simp)

theorem staysInBuffer_iff_nrUsed {host : ByteOrder} {sb : PnlfsSuperblock} :
    StaysInBuffer host sb ↔ (nrUsedOf host sb).toNat ≤ 32768 := by
  have hends := marking_ends (nrUsedOf host sb)
  constructor
  · rintro ⟨s, hs, hstored⟩
    rw [hs.unique hends] at hstored
    by_contra hlarge
    have hmem : 512 ∈ List.range' 0 (((nrUsedOf host sb).toNat + 63) / 64) := by
      rw [List.mem_range'_1]
      omega
    exact absurd (hstored 512 hmem) (by decide)
  · intro hfit
    refine ⟨_, hends, fun i hi => ?_⟩
    have hlt := (List.mem_range'_1.mp hi).2
    omega

/-- The loop is defined exactly when it stays in its buffer. -/
theorem clearUsed_iff_staysInBuffer {host : ByteOrder} {sb : PnlfsSuperblock} :
    (∃ words, clearUsed host 512 0 (nrUsedOf host sb) allFree = some words)
      ↔ StaysInBuffer host sb := by
  rw [staysInBuffer_iff_nrUsed]
  constructor
  · rintro ⟨words, hwords⟩
    by_contra hlarge
    rw [clearUsed_overrun host 512 0 _ _ (by omega)] at hwords
    contradiction
  · intro hfit
    obtain ⟨words, hwords, -⟩ := clearUsed_allFree host _ hfit
    exact ⟨words, hwords⟩

/-- **The loop always ends, and stays in its buffer exactly on images of up to 8257920 blocks, or
8258048.** Between the two and beyond, the blocks in use are more than one map block describes. -/
theorem staysInBuffer_iff (host : ByteOrder) {stSize : Int64} (h : minSize < stSize)
    (hsize : stSize.toInt < 2 ^ 44) :
    (∃ s, Ends (fun s : Marking => s.nrUsed ≠ 0) markLine
        { nrUsed := nrUsedOf host (fillSuperblock host stSize) } s)
      ∧ (StaysInBuffer host (fillSuperblock host stSize)
        ↔ stSize.toInt / 4096 ≤ 8257920 ∨ stSize.toInt / 4096 = 8258048) := by
  refine ⟨⟨_, marking_ends _⟩, ?_⟩
  have hmin := toInt_of_minSize_lt h
  have hlt := firstData_fillSuperblock_lt host h
  have hfit := (counts_fillSuperblock host h).fit_iff (stSize_blocks h) (by omega)
  rw [staysInBuffer_iff_nrUsed, toNat_nrUsedOf (by omega), PnlfsSuperblock.firstData, hfit]
  omega

theorem staysInBuffer_makefileImage :
    (∃ s, Ends (fun s : Marking => s.nrUsed ≠ 0) markLine
        { nrUsed := nrUsedOf .little (fillSuperblock .little 31457280) } s)
      ∧ StaysInBuffer .little (fillSuperblock .little 31457280) := by
  have hsize : minSize < 31457280 := by decide
  obtain ⟨hends, hiff⟩ := staysInBuffer_iff .little hsize (by decide)
  exact ⟨hends, hiff.mpr (by decide)⟩

/-- 8257921 blocks, of which 32769 are in use. -/
theorem not_staysInBuffer_hugeImage :
    minSize < 8257921 * 4096 ∧ (8257921 * 4096 : Int64).toInt < 2 ^ 44
      ∧ ¬ StaysInBuffer .little (fillSuperblock .little (8257921 * 4096)) := by
  refine ⟨by decide, by decide, ?_⟩
  rw [staysInBuffer_iff_nrUsed]
  decide

end Pnl.Mkfs
