import Mathlib.Order.Interval.Finset.Nat
import Pnl.Proof.TaskMonitor2Lifetime

/-!
# The number of samples

`nb_samples` is what `my_shrink_count` reports to the kernel. `save_sample` increments it in the
monitor it is given, but `task_sample_release` knows only the sample, and looks for the monitor
24 bytes in front of it. No monitor is there, since samples and monitors do not overlap: the counter
of the right one keeps counting samples that are gone.
-/

namespace Pnl.TaskMonitor2

open Bytes Krefs Runs

def State.freedBy (s : State) (gfpMask : UInt32) : Nat :=
  (myShrinkScan s gfpMask).1.samples.freed.length - s.samples.freed.length

/-- The counters are the lengths of the lists, and what the shrinker reports before a scan and after
it is what the scan frees. -/
structure Consistent (s : State) : Prop where
  counters : ∀ m ∈ s.tasks, (s.nbSamples m).toInt = (s.head m).length
  count : ∀ gfpMask, gfpMask &&& gfpFs ≠ 0 → (myShrinkCount s).2.toNat = s.freedBy gfpMask
  scan : ∀ gfpMask, gfpMask &&& gfpFs ≠ 0 → (myShrinkScan s gfpMask).2 = (myShrinkCount s).2

/-- The call leaves the counters consistent and those of other objects alone. -/
def CountsRight (s : State) (call : Call) : Prop :=
  Consistent (step s call) ∧ ∀ m ∉ s.tasks, (step s call).nbSamples m = s.nbSamples m

/-- No scan frees a sample, and no list gets longer than an `int` counts. -/
def Call.KeepsCount (s : State) : Call → Prop
  | .saveSample tm (some _) _ => (s.head tm).length < 2 ^ 31 - 1
  | .myShrinkScan gfpMask => gfpMask &&& gfpFs = 0 ∨ ∀ m ∈ s.tasks, s.head m = []
  | _ => True

def Call.object : Call → Option (Addr × Times)
  | .saveSample _ alloc _ => alloc
  | _ => none

/-- The memory that `kmem_cache_alloc` returns is its caller's alone. -/
def Call.Placed (s : State) (call : Call) : Prop :=
  call.Allowed s ∧ ∀ object ∈ call.object, s.Vacant object.1 sizeofTaskSample

/-- Samples and monitors lie in the address space, and no sample in a monitor. -/
structure Placed (s : State) : Prop where
  monitors : ∀ m : Nat, m ∈ s.monitors.live → m + sizeofTaskMonitor ≤ 2 ^ 64
  samples : ∀ t : Nat, t ∈ s.samples.live → 0 < t ∧ t + sizeofTaskSample ≤ 2 ^ 64
  apart : ∀ t : Nat, t ∈ s.samples.live → ∀ m : Nat, m ∈ s.monitors.live →
    t + sizeofTaskSample ≤ m ∨ m + sizeofTaskMonitor ≤ t

theorem Placed.containerOfHead_ne {s : State} (h : Placed s) {t m : Nat}
    (ht : t ∈ s.samples.live) (hm : m ∈ s.monitors.live) : containerOfHead t ≠ m := by
  have hsample : sizeofTaskSample = 40 := rfl
  have hmonitor : sizeofTaskMonitor = 80 := rfl
  have hbound := h.monitors m hm
  have htbound := h.samples t ht
  have hapart := h.apart t ht m hm
  intro heq
  have hstray : (t + (2 ^ 64 - 24)) % 2 ^ 64 = m := heq
  omega

theorem Placed.card_lt {s : State} (h : Placed s) : s.samples.live.card < 2 ^ 64 := by
  have hsubset : s.samples.live ⊆ Finset.Ico 1 (2 ^ 64) := by
    intro t ht
    obtain ⟨hpos, hbound⟩ := h.samples t ht
    have hlt : t < t + sizeofTaskSample := Nat.lt_add_of_pos_right (by decide)
    exact Finset.mem_Ico.mpr ⟨hpos, lt_of_lt_of_le hlt hbound⟩
  calc s.samples.live.card ≤ (Finset.Ico 1 (2 ^ 64)).card := Finset.card_le_card hsubset
    _ = 2 ^ 64 - 1 := Nat.card_Ico _ _
    _ < 2 ^ 64 := by decide

theorem Placed.droppedAll {s : State} (h : Placed s) (ts : List Addr) :
    Placed (s.droppedAll ts) := by
  have hlive : ∀ t, t ∈ (s.droppedAll ts).samples.live → t ∈ s.samples.live := by
    intro t ht
    rw [droppedAll_live] at ht
    exact (Finset.mem_sdiff.mp ht).1
  have hmonitors := droppedAll_monitors s ts
  constructor
  · intro m hm
    exact h.monitors m (hmonitors ▸ hm)
  · exact fun t ht => h.samples t (hlive t ht)
  · exact fun t ht m hm => h.apart t (hlive t ht) m (hmonitors ▸ hm)

theorem Placed.saved {s : State} (h : Placed s) {ts : Nat} (hts : s.Vacant ts sizeofTaskSample)
    (tm : Addr) (times : Times) : Placed (s.saved tm ts times) := by
  obtain ⟨hpos, hbound, -, hapart⟩ := hts
  refine ⟨h.monitors, fun t ht => ?_, fun t ht m hm => ?_⟩
  · rcases Finset.mem_insert.mp ht with rfl | ht
    · exact ⟨hpos, hbound⟩
    · exact h.samples t ht
  · rcases Finset.mem_insert.mp ht with rfl | ht
    · exact hapart m hm
    · exact h.apart t ht m hm

theorem Fresh.placed {s : State} (h : Fresh s) : Placed s := by
  have hnone : ∀ t : Nat, t ∉ s.samples.live := by
    intro t ht
    obtain ⟨m, hm, ht⟩ := h.accounted.samples_listed t ht
    rw [h.head m hm] at ht
    cases ht
  refine ⟨fun m hm => h.bound m (h.accounted.monitors_listed m hm), fun t ht => ?_, fun t ht => ?_⟩
  · exact absurd ht (hnone t)
  · exact absurd ht (hnone t)

/-! ### What the shrinker reports -/

theorem toUInt64_of_toInt {x : Int32} {n : Nat} (h : x.toInt = n) :
    x.toInt64.toUInt64 = UInt64.ofNat n := by
  have hlt := x.toInt_lt
  have hnonneg : (0 : Int64) ≤ x.toInt64 := by
    rw [Int64.le_iff_toInt_le, Int32.toInt_toInt64, h]
    exact Int.natCast_nonneg n
  apply UInt64.toNat_inj.mp
  rw [Int64.toNat_toUInt64_of_le hnonneg, UInt64.toNat_ofNat', Nat.mod_eq_of_lt (by omega)]
  rw [Int64.toNatClampNeg, Int32.toInt_toInt64, h, Int.toNat_natCast]

theorem sum_lengths (head : Addr → List Addr) (ms : List Addr) :
    (ms.map fun m => UInt64.ofNat (head m).length).sum = UInt64.ofNat (ms.flatMap head).length := by
  induction ms with
  | nil => rfl
  | cons m ms ih =>
      rw [List.map_cons, List.sum_cons, ih, List.flatMap_cons, List.length_append, UInt64.ofNat_add]

theorem Accounted.count_of_counters {s : State} (h : Accounted s)
    (hcounters : ∀ m ∈ s.tasks, (s.nbSamples m).toInt = (s.head m).length) :
    (myShrinkCount s).2 = UInt64.ofNat s.listed.length := by
  have hmap : (s.tasks.map fun m => (s.nbSamples m).toInt64.toUInt64)
      = s.tasks.map fun m => UInt64.ofNat (s.head m).length :=
    List.map_congr_left fun m hm => toUInt64_of_toInt (hcounters m hm)
  rw [h.myShrinkCount_eq refs_one_ne_zero]
  dsimp only
  rw [hmap, sum_lengths, State.listed]

theorem Accounted.freedBy_eq {s : State} (h : Accounted s) {gfpMask : UInt32}
    (hmask : gfpMask &&& gfpFs ≠ 0) : s.freedBy gfpMask = s.listed.length := by
  rw [State.freedBy, h.myShrinkScan_eq refs_one_ne_zero hmask, droppedAll_freed,
    List.length_append, List.length_reverse, Nat.add_sub_cancel]

theorem Accounted.consistent_iff {s : State} (h : Accounted s) (hplaced : Placed s) :
    Consistent s ↔ ∀ m ∈ s.tasks, (s.nbSamples m).toInt = (s.head m).length := by
  refine ⟨Consistent.counters, fun hcounters => ⟨hcounters, ?_, ?_⟩⟩
  · intro gfpMask hmask
    have hlt : s.listed.length < 2 ^ 64 := h.length_listed ▸ hplaced.card_lt
    rw [h.count_of_counters hcounters, h.freedBy_eq hmask, UInt64.toNat_ofNat',
      Nat.mod_eq_of_lt hlt]
  · intro gfpMask hmask
    rw [h.count_of_counters hcounters, h.myShrinkScan_eq refs_one_ne_zero hmask]

/-! ### What a call does to the counters -/

theorem droppedAll_nbSamples {s : State} {ts : List Addr} {m : Addr}
    (hstray : ∀ t ∈ ts, containerOfHead t ≠ m) :
    (s.droppedAll ts).nbSamples m = s.nbSamples m := by
  induction ts generalizing s with
  | nil => rfl
  | cons t ts ih =>
      rw [droppedAll_cons, ih fun x hx => hstray x (by simp [hx])]
      have hne : m ≠ containerOfHead t := (hstray t (by simp)).symm
      rw [State.dropped]
      dsimp only
      rw [Function.update_of_ne hne]

theorem toInt_add_one {x : Int32} {n : Nat} (h : x.toInt = n) :
    (x + 1).toInt = (n + 1 : Nat) ↔ n < 2 ^ 31 - 1 := by
  have hlt := x.toInt_lt
  have hone : (1 : Int32).toInt = 1 := by decide
  rw [Int32.toInt_add, hone, h, Int.bmod_def]
  split_ifs <;> omega

structure CountInv (s : State) : Prop where
  accounted : Accounted s
  placed : Placed s
  counters : ∀ m ∈ s.tasks, (s.nbSamples m).toInt = (s.head m).length

theorem CountInv.consistent {s : State} (h : CountInv s) : Consistent s :=
  (h.accounted.consistent_iff h.placed).mpr h.counters

theorem Fresh.countInv {s : State} (h : Fresh s) : CountInv s := by
  refine ⟨h.accounted, h.placed, fun m hm => ?_⟩
  rw [h.nbSamples m hm, h.head m hm]
  rfl

section Saved

variable {s : State} (h : CountInv s) {tm : Addr} (htm : tm ∈ s.tasks) {ts : Nat}
  (hts : s.Vacant ts sizeofTaskSample) (times : Times)

include h htm hts

theorem CountInv.consistent_saved_iff :
    Consistent (s.saved tm ts times) ↔ (s.head tm).length < 2 ^ 31 - 1 := by
  have haccounted := h.accounted.saved htm hts.not_mem_samples times
  have hself : (s.saved tm ts times).nbSamples tm = s.nbSamples tm + 1 :=
    Function.update_self _ _ _
  have hgrown : ((s.saved tm ts times).head tm).length = (s.head tm).length + 1 := by
    rw [saved_head_self, List.length_append, List.length_singleton]
  rw [haccounted.consistent_iff (h.placed.saved hts tm times),
    ← toInt_add_one (h.counters tm htm), ← hself, ← hgrown]
  constructor
  · exact fun hcounters => hcounters tm htm
  · intro hcounter m hm
    by_cases hmtm : m = tm
    · rw [hmtm]
      exact hcounter
    · have hkept : (s.saved tm ts times).nbSamples m = s.nbSamples m :=
        Function.update_of_ne hmtm _ _
      rw [saved_head_of_ne s hmtm, hkept]
      exact h.counters m hm

end Saved

/-- **A scan leaves the counters of the monitors it empties.** -/
theorem CountInv.consistent_droppedAll_iff {s : State} (h : CountInv s) :
    Consistent (s.droppedAll s.listed) ↔ ∀ m ∈ s.tasks, s.head m = [] := by
  have hlive : ∀ t ∈ s.listed, t ∈ s.samples.live := fun t ht => h.accounted.mem_listed_iff.mp ht
  rw [h.accounted.scanned.consistent_iff (h.placed.droppedAll s.listed), droppedAll_tasks]
  refine forall₂_congr fun m hm => ?_
  have hcounter : (s.droppedAll s.listed).nbSamples m = s.nbSamples m :=
    droppedAll_nbSamples fun t ht =>
      h.placed.containerOfHead_ne (hlive t ht) (h.accounted.monitors m hm)
  have hemptied : (s.droppedAll s.listed).head m = [] := by
    rw [droppedAll_head, List.filter_eq_nil_iff]
    intro t ht
    simp [mem_listed.mpr ⟨m, hm, ht⟩]
  rw [hcounter, hemptied, h.counters m hm, List.length_nil, Nat.cast_inj, List.length_eq_zero_iff]

theorem listed_eq_nil {s : State} (h : ∀ m ∈ s.tasks, s.head m = []) : s.listed = [] := by
  rw [State.listed, List.flatMap_eq_nil_iff]
  exact h

theorem CountInv.step_iff (s : State) (call : Call) (h : CountInv s)
    (hplaced : call.Placed s) : CountsRight s call ↔ call.KeepsCount s := by
  have hsame : Consistent s ∧ ∀ m ∉ s.tasks, s.nbSamples m = s.nbSamples m :=
    ⟨h.consistent, fun _ _ => rfl⟩
  obtain ⟨hallowed, hvacant⟩ := hplaced
  have heffect := h.accounted.effect hallowed
  rw [CountsRight]
  generalize step s call = s' at heffect ⊢
  cases heffect with
  | saved contents task htm hfresh =>
      rw [h.consistent_saved_iff htm (hvacant _ rfl)]
      refine and_iff_left fun m hm => Function.update_of_ne ?_ _ _
      rintro rfl
      exact hm htm
  | refused hmask => exact iff_of_true hsame (Or.inl hmask)
  | scanned hmask =>
      rw [h.consistent_droppedAll_iff, Call.KeepsCount]
      constructor
      · exact fun hright => Or.inr hright.1
      · intro hkeeps
        have hempty := hkeeps.resolve_left hmask
        refine ⟨hempty, fun m _ => ?_⟩
        rw [listed_eq_nil hempty]
        rfl
  | _ => exact iff_of_true hsame trivial

theorem CountInv.step (s : State) (call : Call) (h : CountInv s) (hplaced : call.Placed s)
    (hkeeps : call.KeepsCount s) : CountInv (step s call) := by
  have hright := (h.step_iff s call hplaced).mpr hkeeps
  obtain ⟨hallowed, hvacant⟩ := hplaced
  refine ⟨accounted_step s call h.accounted hallowed, ?_, hright.1.counters⟩
  have heffect := h.accounted.effect hallowed
  generalize TaskMonitor2.step s call = s' at heffect ⊢
  cases heffect with
  | saved contents task htm hfresh => exact h.placed.saved (hvacant _ rfl) _ _
  | scanned hmask => exact h.placed.droppedAll _
  | _ => exact h.placed

/-- **Sample accounting.** In a run from a loaded module every call is right about the counters
exactly when no scan meets a sample and no list outgrows the counter. -/
theorem countsRight_iff {s : State} (hload : Loaded s) {calls : List Call}
    (hplaced : StepsMeet step Call.Placed s calls) :
    StepsMeet step CountsRight s calls ↔ StepsMeet step Call.KeepsCount s calls :=
  stepsMeet_iff CountInv.step_iff CountInv.step hload.fresh.countInv hplaced

instance (s : State) (call : Call) : Decidable (call.Placed s) :=
  inferInstanceAs (Decidable (_ ∧ ∀ object ∈ call.object, _))

def countedCalls : List Call :=
  [.saveSample 0x1000 (some (0x2000, { utime := 0, stime := 0 })) none,
    .saveSample 0x1000 (some (0x2028, { utime := 0, stime := 0 })) none, .myShrinkCount]

theorem countsRight_iff_countedCalls :
    StepsMeet step CountsRight State.loaded countedCalls
      ↔ StepsMeet step Call.KeepsCount State.loaded countedCalls :=
  countsRight_iff loaded_loaded (by decide)

def scannedCalls : List Call :=
  [.saveSample 0x1000 (some (0x2000, { utime := 0, stime := 0 })) none, .myShrinkScan 0x80]

/-- The list is empty, the counter is not, and the counter decremented is that of no monitor. -/
theorem not_countsRight_scannedCalls :
    Loaded State.loaded ∧ StepsMeet step Call.Placed State.loaded scannedCalls
      ∧ (final step State.loaded scannedCalls).head 0x1000 = []
      ∧ (final step State.loaded scannedCalls).nbSamples 0x1000 = 1
      ∧ (final step State.loaded scannedCalls).nbSamples (containerOfHead 0x2000) = -1
      ∧ containerOfHead 0x2000 ∉ (final step State.loaded scannedCalls).tasks
      ∧ ¬ Consistent (final step State.loaded scannedCalls)
      ∧ ¬ StepsMeet step CountsRight State.loaded scannedCalls := by
  have hcounter : ¬ ((final step State.loaded scannedCalls).nbSamples 0x1000).toInt
      = ((final step State.loaded scannedCalls).head 0x1000).length := by decide
  have hlisted : 0x1000 ∈ (final step State.loaded scannedCalls).tasks := by decide
  have hwrong : ¬ Consistent (final step State.loaded scannedCalls) :=
    fun h => hcounter (h.counters _ hlisted)
  refine ⟨loaded_loaded, by decide, by decide, by decide, by decide, by decide, hwrong, ?_⟩
  exact fun h => hwrong h.2.1.1

end Pnl.TaskMonitor2
