import Pnl.Proof.TaskMonitor2Contents

/-!
# The page of sysfs_show

`sysfs_show` prints line after line at the end of what the page holds, as `strlen` finds it, each
time into what is left of the page. The page is at every moment the same function of the whole text
so far: what fits before the last byte, and zeros. So once a line was cut the others change nothing,
the text is cut where the page ends and nowhere else, and the position never gets to the page size.
-/

namespace Pnl.TaskMonitor2

open Bytes Krefs Runs

/-! ### A text in a buffer that is too short for it -/

/-- A buffer of `size` zeros after `text` was printed to it: the last byte is never text. -/
def padded (size : Nat) (text : List UInt8) : List UInt8 :=
  text.take (size - 1) ++ List.replicate (size - (text.take (size - 1)).length) 0

section Padded

variable {size : Nat} {text : List UInt8}

theorem padded_nil (size : Nat) : padded size [] = List.replicate size 0 := by
  simp [padded]

theorem strlen_padded (hsize : 0 < size) (hzero : 0 ∉ text) :
    strlen (padded size text) = (text.take (size - 1)).length := by
  have htext : ∀ b ∈ text.take (size - 1), decide (b ≠ 0) = true := by
    intro b hb
    rw [decide_eq_true_eq]
    rintro rfl
    exact hzero (List.mem_of_mem_take hb)
  have hrest : size - (text.take (size - 1)).length
      = size - (text.take (size - 1)).length - 1 + 1 := by
    rw [List.length_take]
    omega
  rw [strlen, padded, List.takeWhile_append_of_pos htext, hrest, List.replicate_succ,
    List.takeWhile_cons_of_neg (by simp), List.append_nil]

/-- **Printing at the end of the text appends to it**, whether or not there is room. -/
theorem scnprintf_padded (hsize : 0 < size) (more : List UInt8) :
    scnprintf (padded size text) (text.take (size - 1)).length
        (size - (text.take (size - 1)).length) more
      = padded size (text ++ more) := by
  set shown := text.take (size - 1) with hshown
  have hlength : shown.length = min (size - 1) text.length := List.length_take
  have hcut : (text ++ more).take (size - 1) = shown ++ more.take (size - shown.length - 1) := by
    rw [List.take_append]
    by_cases hfull : size - 1 ≤ text.length
    · rw [show size - 1 - text.length = size - shown.length - 1 by omega]
    · rw [show size - 1 - text.length = size - shown.length - 1 by omega]
  have hleft : size - shown.length ≠ 0 := by omega
  rw [scnprintf, if_neg hleft, padded, padded, ← hshown, hcut, List.take_left,
    List.drop_append, List.drop_of_length_le (by omega), List.nil_append, List.drop_replicate,
    List.append_assoc, List.append_assoc, List.append_assoc]
  congr 2
  rw [List.singleton_append, ← List.replicate_succ]
  congr 1
  simp only [List.length_append, List.length_singleton, List.length_take]
  omega

end Padded

/-! ### The text of the page -/

theorem zero_notMem_sysfsLine (pid i : Int32) (ts : Times) : 0 ∉ sysfsLine pid i ts := by
  have hnum : 0 ∉ signedDecimal i.toInt := by
    rw [signedDecimal]
    split_ifs
    · rw [List.mem_append, not_or]
      exact ⟨by decide, zero_notMem_decimal _⟩
    · exact zero_notMem_decimal _
  simp only [sysfsLine, List.mem_append, not_or]
  exact ⟨⟨⟨⟨⟨⟨⟨⟨by decide, zero_notMem_decimal _⟩, by decide⟩, hnum⟩, by decide⟩,
    zero_notMem_decimal _⟩, by decide⟩, zero_notMem_decimal _⟩, by decide⟩

def pageOf (text : List UInt8) (i : Int32) : Output where
  buf := padded pageSize text
  count := (text.take (pageSize - 1)).length
  i := i

theorem sysfsEmit_pageOf {text : List UInt8} (hzero : 0 ∉ text) (pid i : Int32) (ts : Times) :
    sysfsEmit pid ts (pageOf text i) = some (pageOf (text ++ sysfsLine pid i ts) (i + 1)) := by
  have hcount : (text.take (pageSize - 1)).length ≠ pageSize := by
    rw [List.length_take, pageSize]
    omega
  have hboth : 0 ∉ text ++ sysfsLine pid i ts := by
    rw [List.mem_append, not_or]
    exact ⟨hzero, zero_notMem_sysfsLine pid i ts⟩
  rw [sysfsEmit, pageOf, if_neg hcount]
  dsimp only
  rw [scnprintf_padded (by decide), strlen_padded (by decide) hboth]
  rfl

theorem sysfsEmit_all (entries : List (Int32 × Times)) {text : List UInt8} (hzero : 0 ∉ text)
    (i : Int32) :
    Emit.all sysfsEmit entries (pageOf text i)
      = some (pageOf (text ++ listing sysfsLine i entries)
          (i + Int32.ofNat entries.length)) := by
  induction entries generalizing text i with
  | nil =>
      rw [listing, List.append_nil, List.length_nil]
      exact congrArg (fun j => some (pageOf text j)) (Int32.add_zero i).symm
  | cons entry entries ih =>
      obtain ⟨pid, ts⟩ := entry
      have hboth : 0 ∉ text ++ sysfsLine pid i ts := by
        rw [List.mem_append, not_or]
        exact ⟨hzero, zero_notMem_sysfsLine pid i ts⟩
      rw [Emit.all, sysfsEmit_pageOf hzero, Option.bind_some, ih hboth, listing, List.append_assoc,
        Loops.count_cons]

/-! ### The numbers of the lines -/

def numberedLine (pid : Int32) (num : Nat) (ts : Times) : List UInt8 :=
  ascii ['p', 'i', 'd', ':'] ++ decimal pid.toUInt32.toUInt16.toNat
    ++ ascii [' ', 'n', 'u', 'm', ':'] ++ decimal num
    ++ ascii [' ', 'u', 's', 'r', ':'] ++ decimal ts.utime.toNat
    ++ ascii [' ', 's', 'y', 's', ':'] ++ decimal ts.stime.toNat ++ ascii ['\n']

/-- The whole text, in the order of the entries and numbered from `num` on. -/
def fullListing : (num : Nat) → List (Int32 × Times) → List UInt8
  | _, [] => []
  | num, (pid, ts) :: entries => numberedLine pid num ts ++ fullListing (num + 1) entries

theorem sysfsLine_ofNat {num : Nat} (hnum : num < 2 ^ 31) (pid : Int32) (ts : Times) :
    sysfsLine pid (Int32.ofNat num) ts = numberedLine pid num ts := by
  have hval : (Int32.ofNat num).toInt = num := Int32.toInt_ofNat_of_lt hnum
  have hsign : ¬ ((num : Int) < 0) := by omega
  rw [sysfsLine, numberedLine, hval, signedDecimal, if_neg hsign, Int.natAbs_natCast]

/-- The counter wraps after 2^31 lines, and a page does not hold that many. -/
theorem take_listing (entries : List (Int32 × Times)) {num room : Nat}
    (h : num + room < 2 ^ 31) :
    (listing sysfsLine (Int32.ofNat num) entries).take room
      = (fullListing num entries).take room := by
  induction entries generalizing num room with
  | nil => rfl
  | cons entry entries ih =>
      obtain ⟨pid, ts⟩ := entry
      have hline : 0 < (numberedLine pid num ts).length := by
        rw [numberedLine, List.length_append]
        exact Nat.lt_add_left _ (by decide)
      rw [listing, fullListing, sysfsLine_ofNat (by omega), List.take_append, List.take_append]
      congr 1
      have hnext : Int32.ofNat num + 1 = Int32.ofNat (num + 1) := (Int32.ofNat_add num 1).symm
      cases room with
      | zero => simp
      | succ room => rw [hnext, ih (by omega)]

/-! ### sysfs_show -/

/-- The lines of all samples, numbered 0, 1, 2, ... across the monitors. -/
def State.fullText (s : State) : List UInt8 := fullListing 0 (s.entries s.tasks)

theorem zero_notMem_listing (i : Int32) (entries : List (Int32 × Times)) :
    0 ∉ listing sysfsLine i entries := by
  induction entries generalizing i with
  | nil => simp [listing]
  | cons entry entries ih =>
      rw [listing, List.mem_append, not_or]
      exact ⟨zero_notMem_sysfsLine _ _ _, ih _⟩

/-- On the page the numbers have not wrapped yet. -/
theorem State.take_fullText (s : State) :
    (listing sysfsLine 0 (s.entries s.tasks)).take (pageSize - 1) = s.fullText.take (pageSize - 1) :=
  take_listing (s.entries s.tasks) (show 0 + (pageSize - 1) < 2 ^ 31 by decide)

theorem Referenced.showMonitors_sysfs {s : State} (h : Referenced s) :
    showMonitors sysfsEmit s s.tasks { buf := List.replicate pageSize 0 }
      = (s, pageOf (listing sysfsLine 0 (s.entries s.tasks))
          (0 + Int32.ofNat (s.entries s.tasks).length), false) := by
  have hstart : ({ buf := List.replicate pageSize 0 } : Output) = pageOf [] 0 := by
    rw [pageOf, padded_nil]
    rfl
  apply h.showMonitors_all (List.Subset.refl _)
  rw [hstart, sysfsEmit_all _ (by simp), List.nil_append]

theorem Referenced.sysfsShow_eq {s : State} (h : Referenced s) :
    sysfsShow s (List.replicate pageSize 0)
      = (s, padded pageSize s.fullText, (s.fullText.take (pageSize - 1)).length) := by
  rw [sysfsShow, h.showMonitors_sysfs]
  dsimp only [pageOf]
  rw [strlen_padded (by decide) (zero_notMem_listing _ _), padded, padded, s.take_fullText]

/-- The page holds the start of the full text and then zeros, the length of that start is returned,
the loops got to their end, and every reference is back. -/
structure ShowsPrefix (s : State) (buf : List UInt8) : Prop where
  page : (sysfsShow s buf).2.1 = padded pageSize s.fullText
  returned : (sysfsShow s buf).2.2 = (s.fullText.take (pageSize - 1)).length
  finished : (showMonitors sysfsEmit s s.tasks { buf := buf }).2.2 = false
  state : (sysfsShow s buf).1 = s

/-- **sysfs_show shows a prefix of the full listing**, cut at the end of the page, and never returns
from the middle. -/
theorem sysfsShow_showsPrefix {s : State} (h : Referenced s) {buf : List UInt8}
    (hbuf : buf = List.replicate pageSize 0) : ShowsPrefix s buf := by
  have hshow := h.sysfsShow_eq
  have hrun := h.showMonitors_sysfs
  rw [← hbuf] at hshow hrun
  exact ⟨by rw [hshow], by rw [hshow], by rw [hrun], by rw [hshow]⟩

/-- Three hundred samples of one monitor, more than a page holds. -/
def crowded : State where
  tasks := [0x1000]
  monitors := { live := {0x1000}, refs := fun _ => 1 }
  head := fun _ => List.range 300
  pid := fun _ => 42
  nbSamples := fun _ => 300
  samples := { live := Finset.range 300, refs := fun _ => 1 }
  times := fun _ => { utime := 7, stime := 8 }

theorem sysfsShow_showsPrefix_crowded : ShowsPrefix crowded (List.replicate pageSize 0) := by
  refine sysfsShow_showsPrefix ⟨⟨?_, ?_⟩, ?_, ?_, ?_⟩ rfl
  · intro m hm
    exact Finset.mem_singleton.mpr (List.mem_singleton.mp hm)
  · intro m _ t ht
    simp only [crowded, List.mem_range] at ht
    exact Finset.mem_range.mpr ht
  · exact fun _ _ => (by decide : (1 : Int32) ≠ 0)
  · exact fun _ _ _ _ => (by decide : (1 : Int32) ≠ 0)
  · exact fun _ _ t _ => Finset.notMem_empty t

end Pnl.TaskMonitor2
