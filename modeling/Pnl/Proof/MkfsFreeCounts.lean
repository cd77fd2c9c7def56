import Pnl.Proof.MkfsGeometry

/-!
# The free maps and the counters of the superblock

The counters come from subtractions in `write_superblock` and the maps from loops in two other
functions. They describe the same image: a map has a clear bit for every block or inode in use and
no other, and as many set bits below the total as the superblock says are free.
-/

namespace Pnl.Mkfs

open Bytes Writes

/-- A map of at least `total` bits, the first `used` of them clear and the others set, that counts
`free` set bits among the first `total`. -/
def Describes (map : List UInt8) (used total free : Nat) : Prop :=
  (∀ k < 8 * map.length, freeBit map k = false ↔ k < used)
    ∧ total ≤ 8 * map.length
    ∧ Nat.count (fun k => freeBit map k = true) total = free

theorem count_congr {p q : Nat → Prop} [DecidablePred p] [DecidablePred q] {n : Nat}
    (h : ∀ k < n, p k ↔ q k) : Nat.count p n = Nat.count q n := by
  induction n with
  | zero => simp
  | succ n ih =>
      rw [Nat.count_succ, Nat.count_succ, ih fun k hk => h k (by omega)]
      simp only [h n (by omega)]

theorem describes_mapBlocks (host : ByteOrder) {words : List UInt64} {used total count : Nat}
    (hlength : words.length = 512) (hused : used ≤ 32768)
    (hwords : ∀ j (h : j < words.length), FreeFrom host used j words[j])
    (htotal : total ≤ 32768 * max 1 count) :
    Describes (wordBytes host words :: List.replicate (count - 1) (wordBytes host allFree)).flatten
      used total (total - used) := by
  have hbytes := length_mapBlocks host hlength count
  have hbit : ∀ k < 32768 * max 1 count,
      freeBit (wordBytes host words :: List.replicate (count - 1) (wordBytes host allFree)).flatten k
        = decide (used ≤ k) := by
    intro k hk
    exact freeBit_blocks host (count - 1) hlength hused hwords (by omega)
  refine ⟨fun k hk => ?_, by omega, ?_⟩
  · rw [hbit k (by omega), decide_eq_false_iff_not]
    omega
  · rw [← count_free used total]
    apply count_congr
    intro k hk
    rw [hbit k (by omega), decide_eq_true_iff]

theorem freeFrom_ifree (host : ByteOrder) :
    ∀ j (h : j < (allFree.set 0 (htole64 host 0xfffffffffffffffc)).length),
      FreeFrom host 2 j (allFree.set 0 (htole64 host 0xfffffffffffffffc))[j] := by
  intro j h
  rw [List.getElem_set]
  split
  · next hzero =>
      refine ⟨0xfffffffffffffffc, rfl, fun k hk => ?_⟩
      subst hzero
      revert k
      decide
  · have hj : j < allFree.length := by simpa using h
    have hones : allFree[j] = 0xffffffffffffffff := List.getElem_replicate _
    rw [hones]
    exact freeFrom_allOnes host (by omega)

theorem eq_sub_of_add_mod {x k n : Nat} (hx : x < 2 ^ 32) (hk : k ≤ n)
    (h : (x + k) % 2 ^ 32 = n) : x = n - k := by
  omega

section Superblock

variable {env : Env} (haccept : env.Accepts) (hsize : env.stSize.toInt < 2 ^ 44)

include haccept hsize

/-- Where the blocks in use fit in one map block, nothing wraps and the blocks in use are among
those of the image. -/
theorem counts_of_firstData_le {sb : PnlfsSuperblock} (hsb : sb = fillSuperblock env.host env.stSize)
    (hfit : sb.firstData env.host + 3 ≤ 32768) :
    sb.firstData env.host + 3 ≤ sb.blocks env.host ∧ 2 ≤ sb.inodes env.host
      ∧ sb.blocks env.host ≤ 32768 * max 1 (sb.bfreeBlocks env.host)
      ∧ sb.inodes env.host ≤ 32768 * max 1 (sb.ifreeBlocks env.host)
      ∧ sb.freeBlocks env.host = sb.blocks env.host - (sb.firstData env.host + 3)
      ∧ sb.freeInodes env.host = sb.inodes env.host - 2 := by
  have hminSize : minSize < env.stSize := haccept.2.2.2
  have hmin := toInt_of_minSize_lt hminSize
  have hcounts := counts_fillSuperblock env.host hminSize
  rw [← hsb] at hcounts
  rw [PnlfsSuperblock.firstData] at hfit ⊢
  have hquot := (hcounts.fit_iff (by omega) (by omega)).mp hfit
  obtain ⟨hblocks, hsum, hinside⟩ := hcounts.exact (by omega) (by omega)
  have hifree := hcounts.ifree
  have hbfree := hcounts.bfree
  refine ⟨hinside, by omega, by omega, by omega, ?_, ?_⟩
  · have hfree := freeBlocks_fillSuperblock env.host hminSize
    rw [← hsb, PnlfsSuperblock.firstData] at hfree
    exact eq_sub_of_add_mod (UInt32.toNat_lt _) hinside hfree
  · have hfree := freeInodes_fillSuperblock env.host env.stSize
    rw [← hsb] at hfree
    rw [hfree]
    omega

/-- **The free maps describe the image the superblock counts.** -/
theorem freeMaps_describe (hfull : ∀ n len, env.dev.Full n len) {fd fd' : Fd} {sb : PnlfsSuperblock}
    (hsb : writeSuperblock env.host env.dev env.malloc env.stSize fd = (fd', some sb))
    (hfit : sb.firstData env.host + 3 ≤ 32768) (fdi fdb : Fd) :
    (∃ fdb' map, writeBfreeBlocks env.host env.dev sb fdb = (fdb', some 0)
        ∧ fdb'.bytes = fdb.bytes ++ map
        ∧ Describes map (sb.firstData env.host + 3) (sb.blocks env.host) (sb.freeBlocks env.host))
      ∧ ∃ fdi' map, writeIfreeBlocks env.host env.dev sb fdi = (fdi', 0)
        ∧ fdi'.bytes = fdi.bytes ++ map
        ∧ Describes map 2 (sb.inodes env.host) (sb.freeInodes env.host) := by
  have hfill := eq_fillSuperblock_of_some hsb
  obtain ⟨-, -, hbits, hibits, hfreeBlocks, hfreeInodes⟩ :=
    counts_of_firstData_le haccept hsize hfill hfit
  constructor
  · have hused : (nrUsedOf env.host sb).toNat = sb.firstData env.host + 3 :=
      toNat_nrUsedOf (by omega)
    obtain ⟨words, hwords, hlength, hfree⟩ :=
      clearUsed_allFree env.host (nrUsedOf env.host sb) (by omega)
    refine ⟨_, _, writeBfreeBlocks_of_takes env.host hwords hlength (takes_of_full hfull _ _),
      bytes_wrote _ _, ?_⟩
    rw [hfreeBlocks]
    exact describes_mapBlocks env.host hlength hfit (hused ▸ hfree) hbits
  · refine ⟨_, _, writeIfreeBlocks_of_takes (takes_of_full hfull _ _), bytes_wrote _ _, ?_⟩
    rw [hfreeInodes]
    exact describes_mapBlocks env.host (by simp) (by omega) (freeFrom_ifree env.host) hibits

end Superblock

theorem freeMaps_describe_makefileImage :
    ∃ fd map, writeBfreeBlocks .little fullDevice (fillSuperblock .little 31457280) {} = (fd, some 0)
      ∧ fd.bytes = [] ++ map
      ∧ Describes map 36 7680 7644 := by
  have hsb : writeSuperblock makefileImage.host makefileImage.dev makefileImage.malloc
      makefileImage.stSize {} = _ := writeSuperblock_of_full rfl
  have haccept : makefileImage.Accepts := by decide
  exact (freeMaps_describe haccept (by decide) (fun _ _ => rfl) hsb (by decide) {} {}).1

end Pnl.Mkfs
