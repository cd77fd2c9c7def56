import Pnl.Proof.MkfsErrors

/-!
# The image keeps its size

No writer knows where it starts or how long the image is, so what keeps the last of them inside the
image is arithmetic alone. The bytes the five writers ask for come from four counts of the
superblock, each with a minimum that is written whatever the count, and the counts are those of
`st_size / 4096` modulo 2^32: the minima need fewer than the hundred blocks `main` insists on, and
the counts never exceed those of the unwrapped quotient.
-/

namespace Pnl.Mkfs

open Bytes Writes

/-- What `main` leaves of an image whose `errno` is `errno` before the first write. `planned` is
about the five writers whatever `words` the free-block map gets to write from its buffer, so also
about an image whose map overruns it. -/
structure KeepsSize (env : Env) (errno : Int) : Prop where
  requested : (main env { calls := [], errno := errno }).1.requested ≤ env.stSize.toInt.toNat
  inside : (main env { calls := [], errno := errno }).1.offset ≤ env.stSize.toInt.toNat
  planned : ∀ words : List UInt64, words.length = 512 →
    (env.requests words).flatten.length ≤ env.stSize.toInt.toNat

/-! ### The sum of the requests -/

section Plan

variable (env : Env) {words : List UInt64}

theorem length_flatten_early :
    env.early.flatten.length
      = 4096 + 16 * max 2 (env.superblock.inodes env.host)
        + 4096 * max 1 (env.superblock.ifreeBlocks env.host) := by
  rw [Env.early, List.flatten_append, List.flatten_append, List.length_append, List.length_append,
    length_inodeStore, length_ifree, List.flatten_singleton, length_superblockBytes]
  rfl

theorem length_flatten_bfree (hwords : words.length = 512) :
    (wordBytes env.host words :: bfreeRest env.host env.superblock).flatten.length
      = 4096 * max 1 (env.superblock.bfreeBlocks env.host) :=
  length_mapBlocks env.host hwords _

theorem length_flatten_requests (hwords : words.length = 512) :
    (env.requests words).flatten.length
      = env.early.flatten.length + 4096 * max 1 (env.superblock.bfreeBlocks env.host)
        + 4096 * 3 := by
  have hshape : env.requests words = env.early
      ++ (wordBytes env.host words :: bfreeRest env.host env.superblock)
      ++ dataRequests env.host env.superblock := by
    simp [Env.requests]
  rw [hshape, List.flatten_append, List.flatten_append, List.length_append, List.length_append,
    length_flatten_bfree env hwords, length_data]

end Plan

/-- A hundred blocks hold the minima, and from there on the image grows faster than the counts. -/
theorem Counts.room {quot b n i f g : Nat} (h : Counts quot b n i f g) (hmin : 100 ≤ quot) :
    4096 + 16 * max 2 n + 4096 * max 1 f + 4096 * max 1 g + 4096 * 3 ≤ 4096 * quot := by
  obtain ⟨hblocks, hinodes, -, hifree, hbfree⟩ := h
  have hb : b ≤ quot := by omega
  have hn : n ≤ b + 255 := by omega
  have hf : f ≤ b / 32768 + 2 := by omega
  have hg : g ≤ b / 32768 + 1 := by omega
  omega

theorem requests_le_stSize {env : Env} (haccept : env.Accepts) {words : List UInt64}
    (hwords : words.length = 512) :
    (env.requests words).flatten.length ≤ env.stSize.toInt.toNat := by
  have hsize := toInt_of_minSize_lt haccept.2.2.2
  have hcounts := counts_fillSuperblock env.host haccept.2.2.2
  rw [← Env.superblock] at hcounts
  have hroom := hcounts.room (by omega)
  rw [length_flatten_requests env hwords, length_flatten_early]
  omega

/-! ### What a run asks for -/

section Requested

variable (env : Env) (fd : Fd)

/-- The free-block map and the data blocks ask for no more than their share, however the device
answers and whether or not `errno` hides the answer. -/
theorem requested_finish_le :
    (env.finish fd).1.requested ≤ fd.requested
      + 4096 * max 1 (env.superblock.bfreeBlocks env.host) + 4096 * 3 := by
  rcases Nat.lt_or_ge 32768 (nrUsedOf env.host env.superblock).toNat with hover | hfit
  · have hnone := clearUsed_overrun env.host 512 0 (nrUsedOf env.host env.superblock) allFree hover
    simp only [Env.finish, writeBfreeBlocks, hnone]
    omega
  · obtain ⟨words, hrun, hwords, -⟩ :=
      clearUsed_allFree env.host (nrUsedOf env.host env.superblock) hfit
    have hbfree := length_flatten_bfree env hwords
    have hdata := length_data env.host env.superblock
    rw [List.flatten_cons, List.length_append] at hbfree
    set first := fd.writeAll env.dev [wordBytes env.host words] with hfirst
    set rest := first.1.writeAll env.dev (bfreeRest env.host env.superblock) with hrest
    set last := rest.1.writeAll env.dev (dataRequests env.host env.superblock) with hlast
    have h₁ : first.1.requested ≤ fd.requested + (wordBytes env.host words).length := by
      simpa using requested_writeAll_le env.dev fd [wordBytes env.host words]
    have h₂ : rest.1.requested ≤ first.1.requested + (bfreeRest env.host env.superblock).flatten.length :=
      requested_writeAll_le env.dev first.1 _
    have h₃ : last.1.requested ≤ rest.1.requested + 4096 * 3 :=
      hdata ▸ requested_writeAll_le env.dev rest.1 _
    rw [finish_eq hrun hwords]
    simp only [← hfirst, ← hrest, ← hlast]
    split_ifs <;> dsimp only <;> omega

variable {env} in
theorem requested_main_le (haccept : env.Accepts) {words : List UInt64}
    (hwords : words.length = 512) :
    (main env fd).1.requested ≤ fd.requested + (env.requests words).flatten.length := by
  rw [length_flatten_requests env hwords]
  by_cases hmalloc : env.malloc = true
  · have hearly := requested_writeAll_le env.dev fd env.early
    rw [main_eq haccept hmalloc]
    split_ifs
    · refine Nat.le_trans (requested_finish_le env _) ?_
      omega
    · refine Nat.le_trans hearly ?_
      omega
  · obtain ⟨hargc, hopen, hfstat, hsize⟩ := haccept
    rw [main, if_neg (by simpa using hargc), if_neg hopen, if_neg (by simpa using hfstat),
      if_neg (Int64.not_le.mpr hsize), writeSuperblock, if_neg hmalloc]
    dsimp only
    omega

end Requested

/-- **mkfs never grows the image**, whatever the device answers and whatever wraps. -/
theorem keepsSize_main {env : Env} (haccept : env.Accepts) (errno : Int) : KeepsSize env errno := by
  have hrun := requested_main_le { calls := [], errno := errno } haccept length_allFree
  have hplan := requests_le_stSize haccept length_allFree
  have hoffset := offset_le_requested (main env { calls := [], errno := errno }).1
  have hfresh : ({ calls := [], errno := errno } : Fd).requested = 0 := rfl
  exact ⟨by omega, by omega, fun words hwords => requests_le_stSize haccept hwords⟩

/-- The largest size an `off_t` holds, whose block count wraps to 2^32 - 1. -/
def largestImage : Env := { makefileImage with stSize := 0x7fffffffffffffff }

theorem keepsSize_largestImage : KeepsSize largestImage 0 := keepsSize_main (by decide) 0

end Pnl.Mkfs
