import Pnl.Pnlfs
import Pnl.Proof.MkfsSuperblock

/-!
# The image, read back

`write_inode_store` and `write_data_blocks` each compute block numbers of the data region from the
superblock, with different formulas, and neither knows what the other wrote. A reader who follows
the numbers from the root inode on ends up at the four bytes of `/foo` all the same.
-/

namespace Pnl.Mkfs

open Bytes Writes Pnlfs

variable {host : ByteOrder}

theorem leNat_store_htole32 (x : UInt32) :
    leNat (host.store 4 (htole32 host x).toNat) = x.toNat := by
  rw [store_htole32, leNat_leBytes, show 256 ^ 4 = 2 ^ 32 from rfl, Nat.mod_eq_of_lt x.toNat_lt]

theorem htole32_zero : htole32 host 0 = 0 := by
  cases host <;> rfl

theorem decode_bytes (host : ByteOrder) (mode indexBlock filesize nrUsedBlocks : UInt32) :
    Inode.decode (PnlfsInode.bytes host
        { mode := htole32 host mode, indexBlock := htole32 host indexBlock
          filesize := htole32 host filesize, nrUsedBlocks := htole32 host nrUsedBlocks })
      = { mode := mode.toNat, indexBlock := indexBlock.toNat, filesize := filesize.toNat
          nrUsedBlocks := nrUsedBlocks.toNat } := by
  have hfield : ∀ x : UInt32, slice (host.store 4 (htole32 host x).toNat) 0 4
      = host.store 4 (htole32 host x).toNat := by
    intro x
    rw [slice, List.drop_zero, List.take_of_length_le (by simp)]
  simp only [Inode.decode, PnlfsInode.bytes, leAt, Inode.mk.injEq]
  refine ⟨?_, ?_, ?_, ?_⟩
  · rw [slice_append_left _ (by simp), slice_append_left _ (by simp),
      slice_append_left _ (by simp), hfield, leNat_store_htole32]
  · rw [slice_append_left _ (by simp), slice_append_left _ (by simp),
      slice_append_right (n := 4) (by simp) _ 0 4, hfield, leNat_store_htole32]
  · rw [slice_append_left _ (by simp), slice_append_right (n := 8) (by simp) _ 0 4, hfield,
      leNat_store_htole32]
  · rw [slice_append_right (n := 12) (by simp) _ 0 4, hfield, leNat_store_htole32]

theorem readInode_store {sbBlock rest : List UInt8} {records : List (List UInt8)}
    (hsb : sbBlock.length = 4096) (hsize : ∀ r ∈ records, r.length = 16) {k : Nat}
    (hk : k < records.length) :
    readInode (sbBlock ++ (records.flatten ++ rest)) k = Inode.decode records[k] := by
  have hlength := length_flatten_of_size hsize
  have hrecord := slice_flatten hsize hk
  have hwithin : 16 * k + 16 ≤ records.flatten.length := by
    rw [hlength]
    omega
  have hblock : slice (block (sbBlock ++ (records.flatten ++ rest)) (1 + k / inodesPerBlock))
      (16 * (k % inodesPerBlock)) 16 = records[k] := by
    rw [block, slice_slice _ (by simp only [inodesPerBlock, blockSize]; omega),
      show blockSize * (1 + k / inodesPerBlock) + 16 * (k % inodesPerBlock) = 4096 + 16 * k by
        simp only [inodesPerBlock, blockSize]; omega,
      slice_append_right hsb, slice_append_left _ hwithin, hrecord]
  rw [readInode, hblock]

theorem block_append {before after : List UInt8} {b i : Nat} (hbefore : before.length = 4096 * b) :
    block (before ++ after) (b + i) = slice after (4096 * i) 4096 := by
  rw [block, blockSize, Nat.mul_add, slice_append_right hbefore]

/-! ### The data blocks -/

theorem dataRequests_flatten (sb : PnlfsSuperblock) (i : Nat) (hi : i < 3) :
    slice (dataRequests host sb).flatten (4096 * i) 4096 = (dataRequests host sb)[i] := by
  apply slice_flatten
  intro r hr
  exact length_of_mem_dataRequests host sb hr

theorem length_rootBlock : (rootBlock host).length = 128 := by
  rw [rootBlock, List.length_set, List.length_replicate]
  rfl

theorem slice_dirBlockBytes {i : Nat} (hi : i < (rootBlock host).length) :
    slice (dirBlockBytes host (rootBlock host)) (32 * i) 32
      = PnlfsFile.bytes host (rootBlock host)[i] :=
  slice_flatMap_of_size (fun _ hfile => length_bytes_of_mem_rootBlock host hfile) hi

theorem readDirEntry_rootBlock {i : Nat} (hi : i < 128) :
    readDirEntry (dirBlockBytes host (rootBlock host)) i
      = if i = 0 then { inode := 1, filename := ascii ['f', 'o', 'o'] ++ List.replicate 25 0 }
        else { inode := 0, filename := List.replicate 28 0 } := by
  have hlength : i < (rootBlock host).length := by rwa [length_rootBlock]
  have hentry := slice_dirBlockBytes hlength
  have hinode : slice (dirBlockBytes host (rootBlock host)) (32 * i) 4
      = slice (slice (dirBlockBytes host (rootBlock host)) (32 * i) 32) 0 4 := by
    rw [slice_slice _ (by omega), Nat.add_zero]
  have hname : slice (dirBlockBytes host (rootBlock host)) (32 * i + 4) 28
      = slice (slice (dirBlockBytes host (rootBlock host)) (32 * i) 32) 4 28 := by
    rw [slice_slice _ (by omega)]
  have hfields : ∀ (x : UInt32) (name : List UInt8), name.length = 28 →
      leNat (slice (PnlfsFile.bytes host { inode := htole32 host x, filename := name }) 0 4) = x.toNat
        ∧ slice (PnlfsFile.bytes host { inode := htole32 host x, filename := name }) 4 28 = name := by
    intro x name hlen
    rw [PnlfsFile.bytes, slice_zero_append (length_store host 4 _), leNat_store_htole32,
      slice_append_right (length_store host 4 _) _ 0 28, slice, List.drop_zero,
      List.take_of_length_le (Nat.le_of_eq hlen)]
    exact ⟨rfl, rfl⟩
  rw [readDirEntry, leAt, hinode, hname, hentry]
  by_cases hzero : i = 0
  · subst hzero
    have hfile : (rootBlock host)[0]
        = { inode := htole32 host 1, filename := ascii ['f', 'o', 'o'] ++ List.replicate 25 0 } := by
      simp only [rootBlock]
      rw [List.getElem_set_self]
      rfl
    obtain ⟨h1, h2⟩ := hfields 1 (ascii ['f', 'o', 'o'] ++ List.replicate 25 0) rfl
    rw [if_pos rfl, hfile, h1, h2]
    rfl
  · have hfile : (rootBlock host)[i]
        = { inode := htole32 host 0, filename := List.replicate 28 0 } := by
      rw [htole32_zero]
      simp only [rootBlock]
      rw [List.getElem_set_ne (by omega), List.getElem_replicate]
      rfl
    obtain ⟨h1, h2⟩ := hfields 0 (List.replicate 28 0) (List.length_replicate)
    rw [if_neg hzero, hfile, h1, h2]
    rfl

theorem readIndex_fooBlock (firstBlock : UInt32) {i : Nat} (hi : i < 1024) :
    readIndex (indexBlockBytes host (fooBlock host firstBlock)) i
      = if i = 0 then firstBlock.toNat else 0 := by
  have hlength : i < (fooBlock host firstBlock).length := by
    rw [fooBlock, List.length_set, List.length_replicate]
    exact hi
  have hentry : (fooBlock host firstBlock)[i]
      = htole32 host (if i = 0 then firstBlock else 0) := by
    simp only [fooBlock]
    by_cases hzero : i = 0
    · subst hzero
      rw [List.getElem_set_self, if_pos rfl]
    · rw [List.getElem_set_ne (by omega), List.getElem_replicate, if_neg hzero, htole32_zero]
  rw [readIndex, leAt, indexBlockBytes, slice_array (fun _ => length_store host 4 _) hlength, hentry,
    leNat_store_htole32]
  split <;> rfl

/-! ### The whole image -/

/-- An image holding one file `/foo` of four bytes, its data region starting at block `d` and its
inode store holding `n` inodes. -/
structure HoldsFoo (image : List UInt8) (d n : Nat) : Prop where
  root_isDir : (readInode image 0).isDir
  root_nrEntries : (readInode image 0).nrEntries = 1
  root_indexBlock : (readInode image 0).indexBlock = d
  dir_inode : (readDirEntry (block image d) 0).inode = 1
  dir_name : (readDirEntry (block image d) 0).name = ascii ['f', 'o', 'o']
  dir_unused : ∀ i, 0 < i → i < 128 →
    readDirEntry (block image d) i = { inode := 0, filename := List.replicate 28 0 }
  foo_isReg : (readInode image 1).isReg
  foo_indexBlock : (readInode image 1).indexBlock = d + 1
  foo_nrUsedBlocks : (readInode image 1).nrUsedBlocks = 1
  foo_filesize : (readInode image 1).filesize = 4
  index_first : readIndex (block image (d + 1)) 0 = d + 2
  index_rest : ∀ i, 0 < i → i < 1024 → readIndex (block image (d + 1)) i = 0
  foo_data : block image (d + 2) = ascii ['f', 'o', 'o', '\n'] ++ List.replicate 4092 0
  inodes_unused : ∀ k, 2 ≤ k → k < n →
    readInode image k = { mode := 0, indexBlock := 0, filesize := 0, nrUsedBlocks := 0 }
  size : image.length = (d + 3) * 4096

section Image

variable {sb : PnlfsSuperblock} (hfit : sb.firstData host + 3 ≤ 32768)

include hfit

theorem readInode_inodeStore {sbBlock : List UInt8} (hsb : sbBlock.length = 4096)
    (hinodes : 2 ≤ sb.inodes host) (rest : List UInt8) {image : List UInt8}
    (himage : image = sbBlock ++ ((inodeStoreRequests host sb).flatten ++ rest)) :
    readInode image 0 = ⟨rootMode.toNat, sb.firstData host, 4096, 1⟩
      ∧ readInode image 1 = ⟨fooMode.toNat, sb.firstData host + 1, 4, 1⟩
      ∧ ∀ k, 2 ≤ k → k < sb.inodes host → readInode image k = ⟨0, 0, 0, 0⟩ := by
  have hfirst : (firstDataBlockOf host sb).toNat = sb.firstData host :=
    toNat_firstDataBlockOf (by omega)
  have hsecond : (firstDataBlockOf host sb + 1).toNat = sb.firstData host + 1 := by
    rw [UInt32.toNat_add, hfirst, show (1 : UInt32).toNat = 1 from rfl]
    omega
  have hcount : (inodeStoreRequests host sb).length = sb.inodes host := by
    rw [inodeStoreRequests, List.length_cons, List.length_cons, List.length_replicate,
      ← PnlfsSuperblock.inodes]
    omega
  have hrecords : ∀ r ∈ inodeStoreRequests host sb, r.length = 16 := by
    intro r hr
    simp only [inodeStoreRequests, List.mem_cons, List.mem_replicate] at hr
    rcases hr with rfl | rfl | ⟨-, rfl⟩ <;> exact length_inodeBytes host _
  rw [himage, ← hcount]
  refine ⟨?_, ?_, fun k hk hkn => ?_⟩
  · rw [readInode_store hsb hrecords (by omega), ← hfirst]
    exact decode_bytes _ _ _ _ _
  · rw [readInode_store hsb hrecords (by omega), ← hsecond]
    exact decode_bytes _ _ _ _ _
  · obtain ⟨j, rfl⟩ : ∃ j, k = j + 2 := ⟨k - 2, by omega⟩
    have hrecord : (inodeStoreRequests host sb)[j + 2] = PnlfsInode.bytes host {} := by
      simp only [inodeStoreRequests, List.getElem_cons_succ, List.getElem_replicate]
    have hdecode := decode_bytes host 0 0 0 0
    rw [htole32_zero] at hdecode
    rw [readInode_store hsb hrecords hkn, hrecord]
    exact hdecode

theorem block_dataRequests {before : List UInt8} (hbefore : before.length = 4096 * sb.firstData host)
    {image : List UInt8} (himage : image = before ++ (dataRequests host sb).flatten) :
    block image (sb.firstData host) = dirBlockBytes host (rootBlock host)
      ∧ (∃ third : UInt32, third.toNat = sb.firstData host + 2
        ∧ block image (sb.firstData host + 1) = indexBlockBytes host (fooBlock host third))
      ∧ block image (sb.firstData host + 2) = fooData := by
  have hblock : ∀ i (hi : i < 3), block image (sb.firstData host + i) = (dataRequests host sb)[i] := by
    intro i hi
    rw [himage, block_append hbefore, dataRequests_flatten sb i hi]
  refine ⟨hblock 0 (by omega), ⟨_, ?_, hblock 1 (by omega)⟩, hblock 2 (by omega)⟩
  simp only [PnlfsSuperblock.firstData, PnlfsSuperblock.istoreBlocks, PnlfsSuperblock.ifreeBlocks,
    PnlfsSuperblock.bfreeBlocks] at hfit ⊢
  simp only [UInt32.toNat_add, show (3 : UInt32).toNat = 3 from rfl]
  omega

variable {sbBlock ifree bfree : List UInt8} (histore : 1 ≤ sb.istoreBlocks host)
  (hinodes : sb.inodes host = 256 * sb.istoreBlocks host) (hsb : sbBlock.length = 4096)
  (hifree : ifree.length = 4096 * sb.ifreeBlocks host)
  (hbfree : bfree.length = 4096 * sb.bfreeBlocks host)

include histore hinodes hsb hifree hbfree

theorem holdsFoo_regions :
    HoldsFoo (sbBlock ++ ((inodeStoreRequests host sb).flatten
        ++ (ifree ++ (bfree ++ (dataRequests host sb).flatten))))
      (sb.firstData host) (sb.inodes host) := by
  set rest := ifree ++ (bfree ++ (dataRequests host sb).flatten) with hrest
  set image := sbBlock ++ ((inodeStoreRequests host sb).flatten ++ rest) with himage
  have hstore : (inodeStoreRequests host sb).flatten.length = 4096 * sb.istoreBlocks host := by
    rw [length_inodeStore, ← PnlfsSuperblock.inodes]
    omega
  have hsplit : image = (sbBlock ++ (inodeStoreRequests host sb).flatten ++ ifree ++ bfree)
      ++ (dataRequests host sb).flatten := by
    simp only [himage, hrest, List.append_assoc]
  have hbefore : (sbBlock ++ (inodeStoreRequests host sb).flatten ++ ifree ++ bfree).length
      = 4096 * sb.firstData host := by
    simp only [List.length_append, hsb, hstore, hifree, hbfree, PnlfsSuperblock.firstData]
    omega
  obtain ⟨hroot, hfoo, hempty⟩ := readInode_inodeStore hfit hsb (by omega) rest himage
  obtain ⟨hdir, ⟨third, hthird, hindex⟩, hdata⟩ := block_dataRequests hfit hbefore hsplit
  constructor
  · rw [hroot]
    exact decide_eq_true (show rootMode.toNat &&& 0xf000 = 0x4000 by decide)
  · rw [hroot]
  · rw [hroot]
  · rw [hdir, readDirEntry_rootBlock (by omega), if_pos rfl]
  · rw [hdir, readDirEntry_rootBlock (by omega), if_pos rfl]
    decide
  · intro i hpos hi
    rw [hdir, readDirEntry_rootBlock hi, if_neg (by omega)]
  · rw [hfoo]
    exact decide_eq_true (show fooMode.toNat &&& 0xf000 = 0x8000 by decide)
  · rw [hfoo]
  · rw [hfoo]
  · rw [hfoo]
  · rw [hindex, readIndex_fooBlock _ (by omega), if_pos rfl, hthird]
  · intro i hpos hi
    rw [hindex, readIndex_fooBlock _ hi, if_neg (by omega)]
  · rw [hdata]
    simp only [fooData, strncpy, ascii, List.drop_replicate]
    rfl
  · exact hempty
  · rw [hsplit, List.length_append, hbefore, length_data]
    omega

end Image

/-- **The image mkfs writes after the superblock block holds `/foo` for a pnlfs reader**, on a host
of either byte order. -/
theorem writers_holdFoo {dev : Device} {sb : PnlfsSuperblock} {fd : Fd}
    (hfull : ∀ n len, dev.Full n len) (histore : 1 ≤ sb.istoreBlocks host)
    (hifree : 1 ≤ sb.ifreeBlocks host) (hbfree : 1 ≤ sb.bfreeBlocks host)
    (hinodes : sb.inodes host = 256 * sb.istoreBlocks host)
    (hfit : sb.firstData host + 3 ≤ 32768) (hfd : fd.offset = 4096) :
    ∃ fd₁ fd₂ fd₃ fd₄,
      writeInodeStore host dev sb fd = (fd₁, 0)
      ∧ writeIfreeBlocks host dev sb fd₁ = (fd₂, 0)
      ∧ writeBfreeBlocks host dev sb fd₂ = (fd₃, some 0)
      ∧ writeDataBlocks host dev sb fd₃ = (fd₄, 0)
      ∧ HoldsFoo fd₄.bytes (sb.firstData host) (sb.inodes host) := by
  have htakes : ∀ n bufs, dev.Takes n bufs := fun n bufs i hi => hfull _ _
  have hused : (nrUsedOf host sb).toNat = sb.firstData host + 3 := toNat_nrUsedOf (by omega)
  obtain ⟨words, hwords, hlength, -⟩ :=
    clearUsed_allFree host (nrUsedOf host sb) (by omega)
  refine ⟨_, _, _, _, writeInodeStore_of_takes (htakes _ _), writeIfreeBlocks_of_takes (htakes _ _),
    writeBfreeBlocks_of_takes host hwords hlength (htakes _ _),
    writeDataBlocks_of_takes (htakes _ _), ?_⟩
  have hifreeLength : (ifreeRequests host sb).flatten.length = 4096 * sb.ifreeBlocks host := by
    rw [length_ifree, ← PnlfsSuperblock.ifreeBlocks]
    omega
  have hbfreeLength : (wordBytes host words :: bfreeRest host sb).flatten.length
      = 4096 * sb.bfreeBlocks host := by
    have hmap := length_mapBlocks host hlength (sb.bfreeBlocks host)
    rw [bfreeRest, ← PnlfsSuperblock.bfreeBlocks, hmap]
    omega
  rw [bytes_wrote, bytes_wrote, bytes_wrote, bytes_wrote, List.append_assoc, List.append_assoc,
    List.append_assoc]
  exact holdsFoo_regions hfit histore hinodes hfd hifreeLength hbfreeLength

def bigEndianSuperblock : PnlfsSuperblock := fillSuperblock .big 31457280

theorem writers_holdFoo_bigEndian :
    ∃ fd₁ fd₂ fd₃ fd₄,
      writeInodeStore .big fullDevice bigEndianSuperblock
          (({} : Fd).wrote [bigEndianSuperblock.bytes .big]) = (fd₁, 0)
      ∧ writeIfreeBlocks .big fullDevice bigEndianSuperblock fd₁ = (fd₂, 0)
      ∧ writeBfreeBlocks .big fullDevice bigEndianSuperblock fd₂ = (fd₃, some 0)
      ∧ writeDataBlocks .big fullDevice bigEndianSuperblock fd₃ = (fd₄, 0)
      ∧ HoldsFoo fd₄.bytes 33 7680 := by
  have hoffset : (({} : Fd).wrote [bigEndianSuperblock.bytes .big]).offset = 4096 := by
    rw [offset_wrote, List.flatten_cons, List.flatten_nil, List.append_nil, length_superblockBytes]
    rfl
  have hstore : 1 ≤ bigEndianSuperblock.istoreBlocks .big := by decide
  exact writers_holdFoo (fun _ _ => rfl) hstore (by decide) (by decide) (by decide) (by decide)
    hoffset

end Pnl.Mkfs
