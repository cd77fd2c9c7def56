import Pnl.Proof.MkfsSuperblock

/-!
# Where the regions start

The offsets of the layout are counted in whole blocks of the superblock, while what a writer emits
is counted in inodes and map blocks. The two agree exactly when the inodes fill their blocks and the
blocks in use fit in one map block, and this module turns that into a condition on the image size.
-/

namespace Pnl.Mkfs

open Bytes Writes

theorem writeSuperblock_of_full {host : ByteOrder} {dev : Device} {stSize : Int64} {fd : Fd}
    (h : dev.Full fd.calls.length pnlfsBlockSize) :
    writeSuperblock host dev true stSize fd
      = (fd.wrote [(fillSuperblock host stSize).bytes host], some (fillSuperblock host stSize)) := by
  have hlength := length_superblockBytes host (fillSuperblock host stSize)
  rw [← hlength] at h
  simp only [writeSuperblock, if_true, write_of_full h, hlength, ne_eq, not_true_eq_false,
    if_false]

theorem eq_fillSuperblock_of_some {host : ByteOrder} {dev : Device} {malloc : Bool}
    {stSize : Int64} {fd fd' : Fd} {sb : PnlfsSuperblock}
    (h : writeSuperblock host dev malloc stSize fd = (fd', some sb)) :
    sb = fillSuperblock host stSize := by
  unfold writeSuperblock at h
  cases malloc with
  | false => simp at h
  | true =>
      simp only [if_true] at h
      split at h
      · simp at h
      · simp only [Prod.mk.injEq, Option.some.injEq] at h
        exact h.2.symm

/-- Each writer starts at the byte where the layout puts its region, and the inode store is whole
blocks. -/
def RegionsInPlace (env : Env) : Prop :=
  ∃ sb fd₁ fd₂ fd₃ fd₄,
    writeSuperblock env.host env.dev env.malloc env.stSize {} = (fd₁, some sb)
    ∧ writeInodeStore env.host env.dev sb fd₁ = (fd₂, 0)
    ∧ writeIfreeBlocks env.host env.dev sb fd₂ = (fd₃, 0)
    ∧ writeBfreeBlocks env.host env.dev sb fd₃ = (fd₄, some 0)
    ∧ 16 * sb.inodes env.host = 4096 * sb.istoreBlocks env.host
    ∧ fd₁.offset = 4096
    ∧ fd₂.offset = 4096 * (1 + sb.istoreBlocks env.host)
    ∧ fd₃.offset = 4096 * (1 + sb.istoreBlocks env.host + sb.ifreeBlocks env.host)
    ∧ fd₄.offset = 4096 * (1 + sb.istoreBlocks env.host + sb.ifreeBlocks env.host
        + sb.bfreeBlocks env.host)
    ∧ sb.blocks env.host ≤ sb.inodes env.host

section Full

variable {env : Env} (haccept : env.Accepts) (hmalloc : env.malloc = true)
  (hfull : ∀ n len, env.dev.Full n len)

include hfull in
theorem takes_of_full (n : Nat) (bufs : List (List UInt8)) : env.dev.Takes n bufs :=
  fun _ _ => hfull _ _

include haccept hmalloc hfull in
theorem regionsInPlace_iff_counts {sb : PnlfsSuperblock}
    (hsb : sb = fillSuperblock env.host env.stSize) :
    RegionsInPlace env ↔
      16 * sb.inodes env.host = 4096 * sb.istoreBlocks env.host ∧ 2 ≤ sb.inodes env.host
        ∧ 1 ≤ sb.ifreeBlocks env.host ∧ 1 ≤ sb.bfreeBlocks env.host
        ∧ sb.firstData env.host + 3 ≤ 32768 ∧ sb.blocks env.host ≤ sb.inodes env.host := by
  have hminSize : minSize < env.stSize := haccept.2.2.2
  have hused : (nrUsedOf env.host sb).toNat = sb.firstData env.host + 3 := by
    apply toNat_nrUsedOf
    have := firstData_fillSuperblock_lt env.host hminSize
    rw [hsb]
    omega
  have hrun₁ : writeSuperblock env.host env.dev env.malloc env.stSize {}
      = (({} : Fd).wrote [sb.bytes env.host], some sb) := by
    rw [hmalloc, hsb]
    exact writeSuperblock_of_full (hfull _ _)
  set fd₁ : Fd := ({} : Fd).wrote [sb.bytes env.host] with hfd₁
  set fd₂ := fd₁.wrote (inodeStoreRequests env.host sb) with hfd₂
  set fd₃ := fd₂.wrote (ifreeRequests env.host sb) with hfd₃
  have hoffset₁ : fd₁.offset = 4096 := by
    rw [hfd₁, offset_wrote, List.flatten_cons, List.flatten_nil, List.append_nil,
      length_superblockBytes]
    rfl
  have hoffset₂ : fd₂.offset = 4096 + 16 * max 2 (sb.inodes env.host) := by
    rw [hfd₂, offset_wrote, hoffset₁, length_inodeStore]
    rfl
  have hoffset₃ : fd₃.offset = fd₂.offset + 4096 * max 1 (sb.ifreeBlocks env.host) := by
    rw [hfd₃, offset_wrote, length_ifree]
    rfl
  have hrun₂ : writeInodeStore env.host env.dev sb fd₁ = (fd₂, 0) :=
    writeInodeStore_of_takes (takes_of_full hfull _ _)
  have hrun₃ : writeIfreeBlocks env.host env.dev sb fd₂ = (fd₃, 0) :=
    writeIfreeBlocks_of_takes (takes_of_full hfull _ _)
  constructor
  · rintro ⟨sb', fd₁', fd₂', fd₃', fd₄, h₁, h₂, h₃, h₄, hstore, -, hplace₂, hplace₃, hplace₄, hle⟩
    rw [hrun₁, Prod.mk.injEq, Option.some.injEq] at h₁
    obtain ⟨rfl, rfl⟩ := h₁
    rw [hrun₂, Prod.mk.injEq] at h₂
    obtain ⟨rfl, -⟩ := h₂
    rw [hrun₃, Prod.mk.injEq] at h₃
    obtain ⟨rfl, -⟩ := h₃
    by_cases hfit : (nrUsedOf env.host sb).toNat ≤ 32768
    · obtain ⟨words, hwords, hlength, -⟩ := clearUsed_allFree env.host _ hfit
      rw [writeBfreeBlocks_of_takes env.host hwords hlength (takes_of_full hfull _ _),
        Prod.mk.injEq] at h₄
      obtain ⟨rfl, -⟩ := h₄
      have hmap := length_mapBlocks env.host hlength (sb.bfreeBlocks env.host)
      rw [offset_wrote, bfreeRest, ← PnlfsSuperblock.bfreeBlocks, hmap] at hplace₄
      refine ⟨hstore, ?_, ?_, ?_, ?_, hle⟩ <;> omega
    · rw [writeBfreeBlocks, clearUsed_overrun env.host _ _ _ _ (by omega)] at h₄
      simp at h₄
  · rintro ⟨hstore, hinodes, hifree, hbfree, hfit, hle⟩
    obtain ⟨words, hwords, hlength, -⟩ :=
      clearUsed_allFree env.host (nrUsedOf env.host sb) (by omega)
    have hmap := length_mapBlocks env.host hlength (sb.bfreeBlocks env.host)
    refine ⟨sb, fd₁, fd₂, fd₃, _, hrun₁, hrun₂, hrun₃,
      writeBfreeBlocks_of_takes env.host hwords hlength (takes_of_full hfull _ _), hstore, hoffset₁,
      ?_, ?_, ?_, hle⟩
    · omega
    · omega
    · rw [offset_wrote, bfreeRest, ← PnlfsSuperblock.bfreeBlocks, hmap]
      omega

end Full

/-- **The layout is respected exactly on images of a multiple of 128 blocks, up to 8258048 blocks.**
The first condition is what adding the remainder instead of rounding up leaves; past the second the
blocks in use no longer fit in the buffer of one map block. -/
theorem regionsInPlace_iff {env : Env} (haccept : env.Accepts) (hsize : env.stSize.toInt < 2 ^ 44)
    (hmalloc : env.malloc = true) (hfull : ∀ n len, env.dev.Full n len) :
    RegionsInPlace env ↔
      env.stSize.toInt / 4096 % 128 = 0 ∧ env.stSize.toInt / 4096 ≤ 8258048 := by
  have hminSize : minSize < env.stSize := haccept.2.2.2
  have hmin := toInt_of_minSize_lt hminSize
  have hcounts := counts_fillSuperblock env.host hminSize
  rw [regionsInPlace_iff_counts haccept hmalloc hfull rfl, PnlfsSuperblock.firstData]
  generalize (fillSuperblock env.host env.stSize).blocks env.host = b at *
  generalize (fillSuperblock env.host env.stSize).inodes env.host = n at *
  generalize (fillSuperblock env.host env.stSize).istoreBlocks env.host = i at *
  generalize (fillSuperblock env.host env.stSize).ifreeBlocks env.host = f at *
  generalize (fillSuperblock env.host env.stSize).bfreeBlocks env.host = g at *
  have hfits := hcounts.fit_iff (by omega) (by omega)
  obtain ⟨hblocks, hinodes, histore, hifree, hbfree⟩ := hcounts
  have hquot : env.stSize.toInt / 4096 = b := by omega
  rw [hquot]
  constructor
  · rintro ⟨hstore, -, -, -, hfit, hle⟩
    -- without a wrap the inodes are `b + b % 256`, a multiple of 256
    have hsum : n = b + b % 256 := by omega
    have hwhole : n % 256 = 0 := by omega
    constructor
    · omega
    · have hmax := hfits.mp hfit
      omega
  · rintro ⟨hmod, hmax⟩
    have hsum : n = b + b % 256 := by omega
    have hfit := hfits.mpr (by omega)
    refine ⟨?_, ?_, ?_, ?_, hfit, ?_⟩ <;> omega

def makefileImage : Env :=
  { host := .little, argc := 2, openRet := 3, fstatRet := 0, stSize := 31457280, malloc := true,
    dev := fullDevice }

theorem regionsInPlace_makefileImage : RegionsInPlace makefileImage := by
  have haccept : makefileImage.Accepts := by decide
  exact (regionsInPlace_iff haccept (by decide) rfl (fun _ _ => rfl)).mpr (by decide)

def unevenImage : Env := { makefileImage with stSize := 257 * 4096 }

theorem not_regionsInPlace_unevenImage :
    unevenImage.Accepts ∧ unevenImage.stSize.toInt < 2 ^ 44 ∧ unevenImage.malloc = true
      ∧ (∀ n len, unevenImage.dev.Full n len) ∧ ¬ RegionsInPlace unevenImage := by
  have haccept : unevenImage.Accepts := by decide
  refine ⟨haccept, by decide, rfl, fun _ _ => rfl, fun hplace => ?_⟩
  have hcounts := (regionsInPlace_iff_counts haccept rfl (fun _ _ => rfl) rfl).mp hplace
  exact absurd hcounts.1 (by decide)

end Pnl.Mkfs
