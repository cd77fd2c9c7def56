import Pnl.Proof.MkfsRequests
import Mathlib.Data.Nat.Count

/-!
# The bits of the free maps

A bit of a map is set when the block or inode it stands for is free. The loops of
`write_bfree_blocks` clear the first `nr_used` bits word by word; what they leave is the map whose
bit `k` is set exactly from `nr_used` on, as long as the words they touch are those of the first
block.
-/

namespace Pnl.Mkfs

open Bytes Writes

variable (host : ByteOrder)

/-- Bit `k` of a map as a reader of the format finds it: bit `k % 64` of its little-endian word
`k / 64`. -/
def freeBit (map : List UInt8) (k : Nat) : Bool := (leAt map (8 * (k / 64)) 8).testBit (k % 64)

/-! ### One word -/

theorem mask_shift {mask : UInt64} {j : Nat} (h : mask.toBitVec = BitVec.twoPow 64 j) :
    (mask <<< 1).toBitVec = BitVec.twoPow 64 (j + 1) := by
  have hshift : (mask <<< 1).toBitVec = mask.toBitVec <<< 1 := rfl
  rw [hshift, h, BitVec.twoPow_eq, BitVec.twoPow_eq, BitVec.shiftLeft_add]

theorem mask_ne_zero {mask : UInt64} {j : Nat} (hj : j < 64)
    (h : mask.toBitVec = BitVec.twoPow 64 j) : mask ≠ 0 := by
  intro hzero
  have hbit : (BitVec.twoPow 64 j).getLsbD j = true := by simp [hj]
  rw [← h, hzero] at hbit
  simp at hbit

theorem toNat_sub_one {n : UInt32} (h : n ≠ 0) : (n - 1).toNat = n.toNat - 1 := by
  have hpos : n.toNat ≠ 0 := fun hzero => h (UInt32.toNat_inj.mp hzero)
  have hlt := n.toNat_lt
  rw [UInt32.toNat_sub, show (1 : UInt32).toNat = 1 from rfl]
  omega

/-- The `for` entered with its mask at bit `j` clears the bits from `j` on, one for each block still
to be marked. -/
theorem clearLine_spec (turns j : Nat) (hturns : turns + j = 64) (mask line : UInt64)
    (nrUsed : UInt32) (hmask : mask.toBitVec = BitVec.twoPow 64 j) (hused : nrUsed ≠ 0) :
    (clearLine turns mask line nrUsed).2.toNat = nrUsed.toNat - turns
      ∧ ∀ k < 64, (clearLine turns mask line nrUsed).1.toBitVec.getLsbD k
        = (line.toBitVec.getLsbD k && !decide (j ≤ k ∧ k < j + nrUsed.toNat)) := by
  induction turns generalizing j mask line nrUsed with
  | zero =>
      refine ⟨rfl, fun k hk => ?_⟩
      have hbelow : ¬ (j ≤ k ∧ k < j + nrUsed.toNat) := by omega
      simp [clearLine, hbelow]
  | succ turns ih =>
      have hpos : nrUsed.toNat ≠ 0 := fun hzero => hused (UInt32.toNat_inj.mp hzero)
      have hsub := toNat_sub_one hused
      have hbit : ∀ k < 64, (line &&& ~~~mask).toBitVec.getLsbD k
          = (line.toBitVec.getLsbD k && !decide (j = k)) := by
        intro k hk
        rw [UInt64.toBitVec_and, UInt64.toBitVec_not, BitVec.getLsbD_and, BitVec.getLsbD_not, hmask,
          BitVec.getLsbD_twoPow]
        simp [hk, show j < 64 by omega]
      rw [clearLine, if_neg (mask_ne_zero (by omega) hmask)]
      dsimp only
      by_cases hlast : nrUsed - 1 = 0
      · have hone : nrUsed.toNat = 1 := by
          rw [hlast] at hsub
          change 0 = nrUsed.toNat - 1 at hsub
          omega
        rw [if_pos hlast]
        refine ⟨by rw [hlast, hone]; exact (Nat.sub_eq_zero_of_le (by omega)).symm, fun k hk => ?_⟩
        have hsame : (j = k) ↔ (j ≤ k ∧ k < j + nrUsed.toNat) := by omega
        rw [hbit k hk, decide_eq_decide.mpr hsame]
      · rw [if_neg hlast]
        obtain ⟨hleft, hbits⟩ := ih (j + 1) (by omega) (mask <<< 1) (line &&& ~~~mask) (nrUsed - 1)
          (mask_shift hmask) hlast
        refine ⟨by rw [hleft, hsub]; omega, fun k hk => ?_⟩
        rw [hbits k hk, hbit k hk, hsub, Bool.and_assoc]
        congr 1
        by_cases hjk : j = k
        · have hin : j ≤ k ∧ k < j + nrUsed.toNat := by omega
          rw [decide_eq_true hjk, decide_eq_true hin, Bool.not_true, Bool.false_and]
        · have hsame : (j + 1 ≤ k ∧ k < j + 1 + (nrUsed.toNat - 1))
              ↔ (j ≤ k ∧ k < j + nrUsed.toNat) := by omega
          rw [decide_eq_false hjk, decide_eq_decide.mpr hsame, Bool.not_false, Bool.true_and]

theorem clearLine_word {nrUsed : UInt32} (hused : nrUsed ≠ 0) :
    (clearLine 64 1 0xffffffffffffffff nrUsed).2.toNat = nrUsed.toNat - 64
      ∧ ∀ k < 64, (clearLine 64 1 0xffffffffffffffff nrUsed).1.toBitVec.getLsbD k
        = decide (nrUsed.toNat ≤ k) := by
  obtain ⟨hleft, hbits⟩ := clearLine_spec 64 0 rfl 1 0xffffffffffffffff nrUsed rfl hused
  refine ⟨hleft, fun k hk => ?_⟩
  have hones : (0xffffffffffffffff : UInt64).toBitVec.getLsbD k = true := by
    rw [show (0xffffffffffffffff : UInt64).toBitVec = BitVec.allOnes 64 from rfl,
      BitVec.getLsbD_allOnes]
    simpa using hk
  rw [hbits k hk, hones, Bool.true_and, ← decide_not]
  exact decide_eq_decide.mpr (by omega)

/-! ### The array -/

theorem htole64_allOnes : htole64 host 0xffffffffffffffff = 0xffffffffffffffff := by
  cases host <;> rfl

/-- A word of a map whose bits are set from the `n`-th bit of the map on. -/
def FreeFrom (n j : Nat) (word : UInt64) : Prop :=
  ∃ line : UInt64, word = htole64 host line
    ∧ ∀ k < 64, line.toBitVec.getLsbD k = decide (n ≤ 64 * j + k)

theorem freeFrom_allOnes {n j : Nat} (h : n ≤ 64 * j) : FreeFrom host n j 0xffffffffffffffff := by
  refine ⟨0xffffffffffffffff, (htole64_allOnes host).symm, fun k hk => ?_⟩
  have hfree : n ≤ 64 * j + k := by omega
  rw [show (0xffffffffffffffff : UInt64).toBitVec = BitVec.allOnes 64 from rfl,
    BitVec.getLsbD_allOnes]
  simp [hk, hfree]

theorem clearUsed_spec (slots i : Nat) (nrUsed : UInt32) (bfree : List UInt64)
    (hlength : bfree.length = i + slots) (hroom : nrUsed.toNat ≤ 64 * slots)
    (hclear : ∀ j (h : j < bfree.length), i ≤ j → bfree[j] = 0xffffffffffffffff) :
    ∃ words, clearUsed host slots i nrUsed bfree = some words ∧ words.length = bfree.length
      ∧ (∀ j (h : j < bfree.length) (h' : j < words.length), j < i → words[j] = bfree[j])
      ∧ ∀ j (h : j < words.length), i ≤ j →
        FreeFrom host (64 * i + nrUsed.toNat) j words[j] := by
  have hdone : ∀ slots, nrUsed = 0 → clearUsed host slots i nrUsed bfree = some bfree := by
    intro slots hzero
    cases slots <;> simp [clearUsed, hzero]
  by_cases hzero : nrUsed = 0
  · refine ⟨bfree, hdone slots hzero, rfl, fun j h h' _ => rfl, fun j h hij => ?_⟩
    rw [hclear j h hij]
    apply freeFrom_allOnes
    rw [hzero]
    change 64 * i + 0 ≤ 64 * j
    omega
  induction slots generalizing i nrUsed bfree with
  | zero =>
      exfalso
      exact hzero (UInt32.toNat_inj.mp (by simpa using hroom))
  | succ slots ih =>
      obtain ⟨hleft, hbits⟩ := clearLine_word hzero
      set line := (clearLine 64 1 0xffffffffffffffff nrUsed).1 with hline
      set rest := (clearLine 64 1 0xffffffffffffffff nrUsed).2 with hrest
      set bfree' := bfree.set i (htole64 host line) with hbfree'
      have hrun : clearUsed host (slots + 1) i nrUsed bfree
          = clearUsed host slots (i + 1) rest bfree' := by
        rw [clearUsed, if_neg hzero]
      have hlength' : bfree'.length = bfree.length := by simp [hbfree']
      have hclear' : ∀ j (h : j < bfree'.length), i + 1 ≤ j → bfree'[j] = 0xffffffffffffffff := by
        intro j h hij
        have hne : i ≠ j := by omega
        simp only [hbfree', List.getElem_set, hne, if_false]
        exact hclear j (by omega) (by omega)
      have hword : FreeFrom host (64 * i + nrUsed.toNat) i (htole64 host line) := by
        refine ⟨line, rfl, fun k hk => ?_⟩
        rw [hbits k hk]
        exact decide_eq_decide.mpr (by omega)
      -- the words this turn leaves alone are those of the next turns
      have hnext : ∃ words, clearUsed host slots (i + 1) rest bfree' = some words
          ∧ words.length = bfree'.length
          ∧ (∀ j (h : j < bfree'.length) (h' : j < words.length), j < i + 1 → words[j] = bfree'[j])
          ∧ ∀ j (h : j < words.length), i + 1 ≤ j →
            FreeFrom host (64 * i + nrUsed.toNat) j words[j] := by
        by_cases hend : rest = 0
        · refine ⟨bfree', by cases slots <;> simp [clearUsed, hend], rfl, fun j h h' _ => rfl,
            fun j h hij => ?_⟩
          rw [hclear' j h hij]
          apply freeFrom_allOnes
          rw [hend] at hleft
          change 0 = nrUsed.toNat - 64 at hleft
          omega
        · obtain ⟨words, hwords, hlen, hlow, hhigh⟩ := ih (i + 1) rest bfree' (by omega) (by omega)
            hclear' (fun slots hrest0 => absurd hrest0 hend) hend
          refine ⟨words, hwords, hlen, hlow, fun j h hij => ?_⟩
          have hpos : rest.toNat ≠ 0 := fun hrest0 => hend (UInt32.toNat_inj.mp hrest0)
          rw [show 64 * i + nrUsed.toNat = 64 * (i + 1) + rest.toNat by omega]
          exact hhigh j h hij
      obtain ⟨words, hwords, hlen, hlow, hhigh⟩ := hnext
      refine ⟨words, hrun.trans hwords, hlen.trans hlength', fun j h h' hji => ?_,
        fun j h hij => ?_⟩
      · rw [hlow j (by omega) h' (by omega)]
        have hne : i ≠ j := by omega
        simp [hbfree', hne]
      · rcases Nat.eq_or_lt_of_le hij with rfl | hlt
        · rw [hlow i (by omega) h (by omega)]
          simpa [hbfree'] using hword
        · exact hhigh j h hlt

/-- With more blocks to mark than the array has bits, the loop leaves the array. -/
theorem clearUsed_overrun (slots i : Nat) (nrUsed : UInt32) (bfree : List UInt64)
    (hroom : 64 * slots < nrUsed.toNat) : clearUsed host slots i nrUsed bfree = none := by
  induction slots generalizing i nrUsed bfree with
  | zero =>
      have hne : nrUsed ≠ 0 := by
        rintro rfl
        exact absurd hroom (by decide)
      rw [clearUsed, if_neg hne]
  | succ slots ih =>
      have hne : nrUsed ≠ 0 := by
        rintro rfl
        change 64 * (slots + 1) < 0 at hroom
        omega
      obtain ⟨hleft, -⟩ := clearLine_word hne
      have hrest := ih (i + 1) (clearLine 64 1 0xffffffffffffffff nrUsed).2
        (bfree.set i (htole64 host (clearLine 64 1 0xffffffffffffffff nrUsed).1))
        (by rw [hleft]; omega)
      rw [clearUsed, if_neg hne]
      exact hrest

theorem clearUsed_allFree (nrUsed : UInt32) (h : nrUsed.toNat ≤ 32768) :
    ∃ words, clearUsed host 512 0 nrUsed allFree = some words ∧ words.length = 512
      ∧ ∀ j (h : j < words.length), FreeFrom host nrUsed.toNat j words[j] := by
  obtain ⟨words, hrun, hlength, -, hwords⟩ := clearUsed_spec host 512 0 nrUsed allFree
    (by simp) (by omega) (fun j h _ => List.getElem_replicate _)
  refine ⟨words, hrun, by simpa using hlength, fun j h => ?_⟩
  simpa using hwords j h (Nat.zero_le j)

theorem writeBfreeBlocks_of_clearUsed {sb : PnlfsSuperblock} {words : List UInt64}
    (hwords : clearUsed host 512 0 (nrUsedOf host sb) allFree = some words) (dev : Device)
    (fd : Fd) :
    writeBfreeBlocks host dev sb fd =
      if ((fd.write dev (wordBytes host words)).2 ≠ pnlfsBlockSize) then
        ((fd.write dev (wordBytes host words)).1, some (-1))
      else
        (((fd.write dev (wordBytes host words)).1.writeAll dev (bfreeRest host sb)).1,
          some (if ((fd.write dev (wordBytes host words)).1.writeAll dev (bfreeRest host sb)).2
            then 0
            else ((fd.write dev (wordBytes host words)).1.writeAll dev (bfreeRest host sb)).1.errno))
      := by
  simp only [writeBfreeBlocks, hwords, writeTimes_eq_writeAll, bfreeRest]
  split_ifs <;> simp_all

theorem writeBfreeBlocks_of_takes {sb : PnlfsSuperblock} {words : List UInt64}
    (hwords : clearUsed host 512 0 (nrUsedOf host sb) allFree = some words)
    (hlength : words.length = 512) {dev : Device} {fd : Fd}
    (h : dev.Takes fd.calls.length (wordBytes host words :: bfreeRest host sb)) :
    writeBfreeBlocks host dev sb fd =
      (fd.wrote (wordBytes host words :: bfreeRest host sb), some 0) := by
  obtain ⟨hhead, htail⟩ := (takes_cons dev).mp h
  have hfirst := length_blockWords host hlength
  rw [writeBfreeBlocks_of_clearUsed host hwords, write_of_full hhead]
  dsimp only
  rw [if_neg (by rw [hfirst]; simp), writeAll_of_takes dev _ (by simpa using htail),
    ← wrote_append, List.singleton_append]
  rfl

/-! ### Reading a map back -/

theorem freeBit_wordBytes {words : List UInt64} {n : Nat}
    (hwords : ∀ j (h : j < words.length), FreeFrom host n j words[j]) {k : Nat}
    (hk : k < 64 * words.length) : freeBit (wordBytes host words) k = decide (n ≤ k) := by
  have hj : k / 64 < words.length := by omega
  obtain ⟨line, hword, hbits⟩ := hwords (k / 64) hj
  have hsize : ∀ word : UInt64, (host.store 8 word.toNat).length = 8 := fun _ =>
    length_store host 8 _
  have hslice := slice_array hsize hj
  have hvalue : leAt (wordBytes host words) (8 * (k / 64)) 8 = line.toNat := by
    rw [leAt, wordBytes, hslice, hword, store_htole64, leNat_leBytes,
      show 256 ^ 8 = 2 ^ 64 from rfl, Nat.mod_eq_of_lt line.toNat_lt]
  rw [freeBit, hvalue, ← UInt64.toNat_toBitVec, BitVec.testBit_toNat, hbits _ (by omega)]
  exact decide_eq_decide.mpr (by omega)

theorem wordBytes_append_replicate (words : List UInt64) (count : Nat) :
    (wordBytes host words :: List.replicate count (wordBytes host allFree)).flatten
      = wordBytes host (words ++ (List.replicate count allFree).flatten) := by
  have happend : ∀ a b, wordBytes host (a ++ b) = wordBytes host a ++ wordBytes host b :=
    fun a b => List.flatMap_append
  rw [List.flatten_cons, happend]
  congr 1
  induction count with
  | zero => rfl
  | succ count ih =>
      rw [List.replicate_succ, List.flatten_cons, ih, List.replicate_succ, List.flatten_cons,
        happend]

theorem freeFrom_append_replicate {words : List UInt64} {n : Nat} (count : Nat)
    (hlength : words.length = 512) (hn : n ≤ 32768)
    (hwords : ∀ j (h : j < words.length), FreeFrom host n j words[j]) :
    ∀ j (h : j < (words ++ (List.replicate count allFree).flatten).length),
      FreeFrom host n j (words ++ (List.replicate count allFree).flatten)[j] := by
  intro j h
  by_cases hj : j < words.length
  · rw [List.getElem_append_left hj]
    exact hwords j hj
  · rw [List.getElem_append_right (by omega)]
    have hones : ∀ word ∈ (List.replicate count allFree).flatten,
        word = 0xffffffffffffffff := by
      intro word hword
      obtain ⟨block, hblock, hmem⟩ := List.mem_flatten.mp hword
      rw [List.eq_of_mem_replicate hblock] at hmem
      exact List.eq_of_mem_replicate hmem
    rw [hones _ (List.getElem_mem _)]
    exact freeFrom_allOnes host (by omega)

/-- **The map a first block and whole free blocks after it make up.** -/
theorem freeBit_blocks {words : List UInt64} {n : Nat} (count : Nat)
    (hlength : words.length = 512) (hn : n ≤ 32768)
    (hwords : ∀ j (h : j < words.length), FreeFrom host n j words[j]) {k : Nat}
    (hk : k < 32768 * (count + 1)) :
    freeBit (wordBytes host words :: List.replicate count (wordBytes host allFree)).flatten k
      = decide (n ≤ k) := by
  rw [wordBytes_append_replicate]
  apply freeBit_wordBytes host (freeFrom_append_replicate host count hlength hn hwords)
  have hflat : (List.replicate count allFree).flatten.length = 512 * count := by
    rw [List.length_flatten, List.map_replicate, length_allFree, List.sum_replicate_nat]
    ring
  rw [List.length_append, hlength, hflat]
  omega

theorem count_free (n m : Nat) : Nat.count (fun k => n ≤ k) m = m - n := by
  induction m with
  | zero => simp
  | succ m ih =>
      rw [Nat.count_succ, ih]
      split <;> omega

end Pnl.Mkfs
