import Pnl.Proof.MkfsErrors

/-!
# The same image on every host

A host keeps its own byte order in memory, converts what it stores in the superblock and converts it
back when it reads a count. A run of mkfs-pnlfs on a big-endian host makes the same calls of `write`
as on a little-endian one, with the same bytes, and ends the same way: in each writer the
conversions cancel, either in a buffer or in a count read back from the superblock.
-/

namespace Pnl.Mkfs

open Bytes Writes

/-! ### Buffers -/

theorem store_zero (host : ByteOrder) (n : Nat) : host.store n 0 = leBytes n 0 := by
  have hzeros : leBytes n 0 = List.replicate n 0 := by
    induction n with
    | zero => rfl
    | succ n ih =>
        rw [leBytes, Nat.zero_div, ih, List.replicate_succ]
        rfl
  cases host with
  | little => rfl
  | big => rw [ByteOrder.store, hzeros, List.reverse_replicate]

theorem wordBytes_htole64 (host : ByteOrder) (words : List UInt64) :
    wordBytes host (words.map (htole64 host)) = wordBytes .little words := by
  rw [wordBytes, List.flatMap_map]
  simp only [store_htole64]
  rfl

variable (host : ByteOrder)

theorem map_allFree : allFree.map (htole64 host) = allFree := by
  rw [allFree, List.map_replicate, htole64_allOnes]

theorem wordBytes_allFree : wordBytes host allFree = wordBytes .little allFree := by
  have hsame := wordBytes_htole64 host allFree
  rwa [map_allFree] at hsame

theorem map_set_allFree (word : UInt64) :
    (allFree.set 0 word).map (htole64 host) = allFree.set 0 (htole64 host word) := by
  rw [List.map_set, map_allFree]

theorem superblockBytes_host (stSize : Int64) :
    (fillSuperblock host stSize).bytes host = (fillSuperblock .little stSize).bytes .little := by
  simp only [PnlfsSuperblock.bytes, fillSuperblock, store_htole32]

theorem rootInodeBytes_host (firstDataBlock : UInt32) :
    (rootInode host firstDataBlock).bytes host
      = (rootInode .little firstDataBlock).bytes .little := by
  simp only [PnlfsInode.bytes, rootInode, store_htole32]

theorem fooInodeBytes_host (firstDataBlock : UInt32) :
    (fooInode host firstDataBlock).bytes host = (fooInode .little firstDataBlock).bytes .little := by
  simp only [PnlfsInode.bytes, fooInode, store_htole32]

theorem emptyInodeBytes_host :
    PnlfsInode.bytes host {} = PnlfsInode.bytes .little {} := by
  simp only [PnlfsInode.bytes, UInt32.toNat_zero, store_zero]

theorem dirBlockBytes_host :
    dirBlockBytes host (rootBlock host) = dirBlockBytes .little (rootBlock .little) := by
  have hfile (inode : UInt32) (filename : List UInt8) :
      PnlfsFile.bytes host ⟨htole32 host inode, filename⟩
        = PnlfsFile.bytes .little ⟨htole32 .little inode, filename⟩ := by
    simp only [PnlfsFile.bytes, store_htole32]
  have hempty : PnlfsFile.bytes host {} = PnlfsFile.bytes .little {} := by
    simp only [PnlfsFile.bytes, UInt32.toNat_zero, store_zero]
  have hlayout (order : ByteOrder) : dirBlockBytes order (rootBlock order)
      = (((List.replicate pnlfsMaxDirEntries (PnlfsFile.bytes order {})).set 0
          (PnlfsFile.bytes order ⟨htole32 order 1,
            strncpy (List.replicate pnlfsFilenameLen 0) (ascii ['f', 'o', 'o']) 28⟩))).flatten := by
    rw [dirBlockBytes, rootBlock, List.flatMap_def, List.map_set, List.map_replicate]
  rw [hlayout, hlayout, hfile, hempty]

theorem indexBlockBytes_host (firstBlock : UInt32) :
    indexBlockBytes host (fooBlock host firstBlock)
      = indexBlockBytes .little (fooBlock .little firstBlock) := by
  have hlayout (order : ByteOrder) : indexBlockBytes order (fooBlock order firstBlock)
      = ((List.replicate (pnlfsBlockSize / 4) (leBytes 4 0)).set 0
          (leBytes 4 firstBlock.toNat)).flatten := by
    rw [indexBlockBytes, fooBlock, List.flatMap_def, List.map_set, List.map_replicate,
      store_htole32, UInt32.toNat_zero, store_zero]
  rw [hlayout, hlayout]

/-- Filling the first block of the free-block map commutes with converting its words. -/
theorem clearUsed_host (slots i : Nat) (nrUsed : UInt32) (bfree : List UInt64) :
    clearUsed host slots i nrUsed (bfree.map (htole64 host))
      = (clearUsed .little slots i nrUsed bfree).map (List.map (htole64 host)) := by
  induction slots generalizing i nrUsed bfree with
  | zero =>
      rw [clearUsed, clearUsed]
      split <;> rfl
  | succ slots ih =>
      rw [clearUsed, clearUsed]
      split
      · rfl
      · dsimp only
        rw [← List.map_set, ih]
        rfl

/-! ### Counts read back -/

variable (stSize : Int64)

theorem firstDataBlockOf_host :
    firstDataBlockOf host (fillSuperblock host stSize)
      = firstDataBlockOf .little (fillSuperblock .little stSize) := by
  simp only [firstDataBlockOf, fillSuperblock, le32toh_htole32]

theorem nrUsedOf_host :
    nrUsedOf host (fillSuperblock host stSize)
      = nrUsedOf .little (fillSuperblock .little stSize) := by
  simp only [nrUsedOf, fillSuperblock, le32toh_htole32]

theorem inodeStoreRequests_host :
    inodeStoreRequests host (fillSuperblock host stSize)
      = inodeStoreRequests .little (fillSuperblock .little stSize) := by
  have hinodes : le32toh host (fillSuperblock host stSize).nrInodes
      = le32toh .little (fillSuperblock .little stSize).nrInodes := by
    simp only [fillSuperblock, le32toh_htole32]
  rw [inodeStoreRequests, inodeStoreRequests, firstDataBlockOf_host, rootInodeBytes_host,
    fooInodeBytes_host, emptyInodeBytes_host, hinodes]

theorem ifreeRequests_host :
    ifreeRequests host (fillSuperblock host stSize)
      = ifreeRequests .little (fillSuperblock .little stSize) := by
  have hcount : le32toh host (fillSuperblock host stSize).nrIfreeBlocks
      = le32toh .little (fillSuperblock .little stSize).nrIfreeBlocks := by
    simp only [fillSuperblock, le32toh_htole32]
  have hfirst : wordBytes host (allFree.set 0 (htole64 host 0xfffffffffffffffc))
      = wordBytes .little (allFree.set 0 (htole64 .little 0xfffffffffffffffc)) := by
    rw [← map_set_allFree, wordBytes_htole64, htole64]
  rw [ifreeRequests, ifreeRequests, hfirst, wordBytes_allFree, hcount]

theorem dataRequests_host :
    dataRequests host (fillSuperblock host stSize)
      = dataRequests .little (fillSuperblock .little stSize) := by
  rw [dataRequests, dataRequests, dirBlockBytes_host, indexBlockBytes_host]
  simp only [fillSuperblock, le32toh_htole32]

/-! ### Writers -/

variable (dev : Device) (fd : Fd)

theorem writeSuperblock_host (malloc : Bool) :
    writeSuperblock host dev malloc stSize fd
      = ((writeSuperblock .little dev malloc stSize fd).1,
          (writeSuperblock .little dev malloc stSize fd).2.map fun _ =>
            fillSuperblock host stSize) := by
  cases malloc with
  | false => rfl
  | true =>
      rw [writeSuperblock_eq, writeSuperblock_eq, superblockBytes_host]
      dsimp only
      split <;> rfl

theorem writeSuperblock_little (malloc : Bool) :
    ∃ fd', writeSuperblock .little dev malloc stSize fd = (fd', none)
      ∨ writeSuperblock .little dev malloc stSize fd = (fd', some (fillSuperblock .little stSize)) := by
  cases malloc with
  | false => exact ⟨fd, Or.inl rfl⟩
  | true =>
      rw [writeSuperblock_eq]
      refine ⟨(fd.writeAll dev [(fillSuperblock .little stSize).bytes .little]).1, ?_⟩
      split
      · exact Or.inr rfl
      · exact Or.inl rfl

theorem writeInodeStore_host :
    writeInodeStore host dev (fillSuperblock host stSize) fd
      = writeInodeStore .little dev (fillSuperblock .little stSize) fd := by
  rw [writeInodeStore_eq, writeInodeStore_eq, inodeStoreRequests_host]

theorem writeIfreeBlocks_host :
    writeIfreeBlocks host dev (fillSuperblock host stSize) fd
      = writeIfreeBlocks .little dev (fillSuperblock .little stSize) fd := by
  rw [writeIfreeBlocks_eq, writeIfreeBlocks_eq, ifreeRequests_host]

theorem writeBfreeBlocks_host :
    writeBfreeBlocks host dev (fillSuperblock host stSize) fd
      = writeBfreeBlocks .little dev (fillSuperblock .little stSize) fd := by
  have hcount : le32toh host (fillSuperblock host stSize).nrBfreeBlocks
      = le32toh .little (fillSuperblock .little stSize).nrBfreeBlocks := by
    simp only [fillSuperblock, le32toh_htole32]
  have hfirst := clearUsed_host host 512 0 (nrUsedOf host (fillSuperblock host stSize)) allFree
  rw [map_allFree] at hfirst
  rw [writeBfreeBlocks, writeBfreeBlocks, hfirst, nrUsedOf_host, hcount, wordBytes_allFree]
  cases clearUsed .little 512 0 (nrUsedOf .little (fillSuperblock .little stSize)) allFree with
  | none => rfl
  | some bfree =>
      dsimp only [Option.map_some]
      rw [wordBytes_htole64]

theorem writeDataBlocks_host :
    writeDataBlocks host dev (fillSuperblock host stSize) fd
      = writeDataBlocks .little dev (fillSuperblock .little stSize) fd := by
  rw [writeDataBlocks_eq, writeDataBlocks_eq, dataRequests_host]

theorem main_little (env : Env) :
    main env fd = main { env with host := .little } fd := by
  unfold main
  split
  · rfl
  split
  · rfl
  split
  · rfl
  split
  · rfl
  dsimp only
  rw [writeSuperblock_host]
  obtain ⟨fd', hnone | hsome⟩ := writeSuperblock_little env.stSize env.dev fd env.malloc
  · rw [hnone]
    rfl
  · rw [hsome]
    simp only [Option.map_some, writeInodeStore_host, writeIfreeBlocks_host,
      writeBfreeBlocks_host, writeDataBlocks_host]

/-- **The host does not show in the image.** Whatever the arguments, the image and the answers of its
device, a run makes the same calls with the same bytes and results on every host, and ends with the
same exit code, or in the same overrun. -/
theorem main_host (env : Env) : main { env with host := host } fd = main env fd :=
  (main_little fd { env with host := host }).trans (main_little fd env).symm

end Pnl.Mkfs
