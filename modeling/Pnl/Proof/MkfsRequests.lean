import Pnl.Mkfs

/-!
# What each writer asks for

Every writer of mkfs-pnlfs is a sequence of checked writes, so it is determined by the buffers it
asks to write and by the code it returns when one of them is refused. The buffers depend on the
superblock alone, which is what makes their total length computable before anything is written.
-/

namespace Pnl.Mkfs

open Bytes Writes

variable (host : ByteOrder) (dev : Device) (sb : PnlfsSuperblock) (fd : Fd)

@[simp]
theorem length_inodeBytes (inode : PnlfsInode) :
    (inode.bytes host).length = sizeofPnlfsInode := by
  simp [PnlfsInode.bytes, sizeofPnlfsInode]

@[simp]
theorem length_superblockBytes : (sb.bytes host).length = pnlfsBlockSize := by
  simp only [PnlfsSuperblock.bytes, List.length_append, length_store, List.length_replicate,
    pnlfsBlockSize]

theorem length_wordBytes (words : List UInt64) :
    (wordBytes host words).length = 8 * words.length :=
  length_array (fun _ => length_store host 8 _) words

@[simp]
theorem length_allFree : allFree.length = 512 := List.length_replicate

theorem length_blockWords {words : List UInt64} (h : words.length = 512) :
    (wordBytes host words).length = pnlfsBlockSize := by
  rw [length_wordBytes, h]
  rfl

def firstDataBlockOf : UInt32 :=
  1 + le32toh host sb.nrBfreeBlocks + le32toh host sb.nrIfreeBlocks + le32toh host sb.nrIstoreBlocks

def inodeStoreRequests : List (List UInt8) :=
  (rootInode host (firstDataBlockOf host sb)).bytes host
    :: (fooInode host (firstDataBlockOf host sb + 1)).bytes host
    :: List.replicate ((le32toh host sb.nrInodes).toNat - 2) (PnlfsInode.bytes host {})

def ifreeRequests : List (List UInt8) :=
  wordBytes host (allFree.set 0 (htole64 host 0xfffffffffffffffc))
    :: List.replicate ((le32toh host sb.nrIfreeBlocks).toNat - 1) (wordBytes host allFree)

def bfreeRest : List (List UInt8) :=
  List.replicate ((le32toh host sb.nrBfreeBlocks).toNat - 1) (wordBytes host allFree)

def dataRequests : List (List UInt8) :=
  [dirBlockBytes host (rootBlock host),
    indexBlockBytes host (fooBlock host (le32toh host sb.nrIstoreBlocks
      + le32toh host sb.nrIfreeBlocks + le32toh host sb.nrBfreeBlocks + 3)),
    fooData]

theorem writeInodeStore_eq :
    writeInodeStore host dev sb fd =
      ((fd.writeAll dev (inodeStoreRequests host sb)).1,
        if (fd.writeAll dev (inodeStoreRequests host sb)).2 then 0 else -1) := by
  simp only [writeInodeStore, inodeStoreRequests, Fd.writeAll, length_inodeBytes,
    writeTimes_eq_writeAll, firstDataBlockOf]
  split_ifs <;> simp_all

theorem ifree_second_pass :
    (allFree.set 0 (htole64 host 0xfffffffffffffffc)).set 0 0xffffffffffffffff = allFree := by
  rw [List.set_set]
  rfl

theorem writeIfreeBlocks_eq :
    writeIfreeBlocks host dev sb fd =
      ((fd.writeAll dev (ifreeRequests host sb)).1,
        if (fd.writeAll dev (ifreeRequests host sb)).2 then 0 else -1) := by
  have hfirst : (wordBytes host (allFree.set 0 (htole64 host 0xfffffffffffffffc))).length
      = pnlfsBlockSize := length_blockWords host (by simp)
  simp only [writeIfreeBlocks, ifreeRequests, Fd.writeAll, hfirst, writeTimes_eq_writeAll,
    ifree_second_pass]
  split_ifs <;> simp_all

theorem length_fileBytes {file : PnlfsFile} (h : file.filename.length = pnlfsFilenameLen) :
    (file.bytes host).length = 32 := by
  rw [PnlfsFile.bytes, List.length_append, length_store, h, pnlfsFilenameLen]

theorem length_filename_of_mem_rootBlock {file : PnlfsFile} (h : file ∈ rootBlock host) :
    file.filename.length = pnlfsFilenameLen := by
  rcases List.mem_or_eq_of_mem_set h with hmem | rfl
  · rw [List.eq_of_mem_replicate hmem, List.length_replicate]
  · rfl

theorem length_bytes_of_mem_rootBlock {file : PnlfsFile} (h : file ∈ rootBlock host) :
    (file.bytes host).length = 32 :=
  length_fileBytes host (length_filename_of_mem_rootBlock host h)

theorem length_dirBlockBytes : (dirBlockBytes host (rootBlock host)).length = pnlfsBlockSize := by
  rw [dirBlockBytes, length_flatMap_of_size fun _ hfile => length_bytes_of_mem_rootBlock host hfile,
    rootBlock, List.length_set, List.length_replicate]
  rfl

theorem length_indexBlockBytes (firstBlock : UInt32) :
    (indexBlockBytes host (fooBlock host firstBlock)).length = pnlfsBlockSize := by
  rw [indexBlockBytes, length_array (fun _ => length_store host 4 _), fooBlock, List.length_set,
    List.length_replicate]
  rfl

theorem length_fooData : fooData.length = pnlfsBlockSize := by
  simp only [fooData, strncpy, ascii, List.length_append, List.length_take, List.length_map,
    List.length_drop, List.length_replicate, pnlfsBlockSize, List.length_cons, List.length_nil]
  rfl

theorem writeDataBlocks_eq :
    writeDataBlocks host dev sb fd =
      ((fd.writeAll dev (dataRequests host sb)).1,
        if (fd.writeAll dev (dataRequests host sb)).2 then 0
        else (fd.writeAll dev (dataRequests host sb)).1.errno) := by
  simp only [writeDataBlocks, dataRequests, Fd.writeAll, length_dirBlockBytes,
    length_indexBlockBytes, length_fooData]
  split_ifs <;> simp_all

/-! ### When every request is taken -/

variable {host dev sb fd}

theorem writeInodeStore_of_takes (h : dev.Takes fd.calls.length (inodeStoreRequests host sb)) :
    writeInodeStore host dev sb fd = (fd.wrote (inodeStoreRequests host sb), 0) := by
  rw [writeInodeStore_eq, writeAll_of_takes dev fd h]
  rfl

theorem writeIfreeBlocks_of_takes (h : dev.Takes fd.calls.length (ifreeRequests host sb)) :
    writeIfreeBlocks host dev sb fd = (fd.wrote (ifreeRequests host sb), 0) := by
  rw [writeIfreeBlocks_eq, writeAll_of_takes dev fd h]
  rfl

theorem writeDataBlocks_of_takes (h : dev.Takes fd.calls.length (dataRequests host sb)) :
    writeDataBlocks host dev sb fd = (fd.wrote (dataRequests host sb), 0) := by
  rw [writeDataBlocks_eq, writeAll_of_takes dev fd h]
  rfl

variable (host sb)

theorem length_inodeStore :
    (inodeStoreRequests host sb).flatten.length = 16 * max 2 (le32toh host sb.nrInodes).toNat := by
  have hsize : ∀ r ∈ inodeStoreRequests host sb, r.length = sizeofPnlfsInode := by
    intro r hr
    simp only [inodeStoreRequests, List.mem_cons, List.mem_replicate] at hr
    rcases hr with rfl | rfl | ⟨-, rfl⟩ <;> exact length_inodeBytes host _
  rw [length_flatten_of_size hsize, inodeStoreRequests, List.length_cons, List.length_cons,
    List.length_replicate, sizeofPnlfsInode]
  omega

theorem length_mapBlocks {words : List UInt64} (hwords : words.length = 512) (count : Nat) :
    (wordBytes host words :: List.replicate (count - 1) (wordBytes host allFree)).flatten.length
      = 4096 * max 1 count := by
  have hsize : ∀ r ∈ wordBytes host words :: List.replicate (count - 1) (wordBytes host allFree),
      r.length = pnlfsBlockSize := by
    intro r hr
    simp only [List.mem_cons, List.mem_replicate] at hr
    rcases hr with rfl | ⟨-, rfl⟩
    · exact length_blockWords host hwords
    · exact length_blockWords host length_allFree
  rw [length_flatten_of_size hsize, List.length_cons, List.length_replicate, pnlfsBlockSize]
  omega

theorem length_ifree :
    (ifreeRequests host sb).flatten.length = 4096 * max 1 (le32toh host sb.nrIfreeBlocks).toNat :=
  length_mapBlocks host (by simp) _

theorem length_of_mem_dataRequests {r : List UInt8} (hr : r ∈ dataRequests host sb) :
    r.length = pnlfsBlockSize := by
  simp only [dataRequests, List.mem_cons, List.not_mem_nil, or_false] at hr
  rcases hr with rfl | rfl | rfl
  · exact length_dirBlockBytes host
  · exact length_indexBlockBytes host _
  · exact length_fooData

theorem length_data : (dataRequests host sb).flatten.length = 4096 * 3 := by
  rw [length_flatten_of_size fun r hr => length_of_mem_dataRequests host sb hr]
  rfl

end Pnl.Mkfs
