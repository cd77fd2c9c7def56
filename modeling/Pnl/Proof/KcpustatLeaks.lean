import Pnl.Proof.KcpustatReports

/-!
# Which samples kcpustat leaks

Between two iterations the samples that were allocated and not freed are those on `my_head`. Only
`print_stats` frees samples, and `kcpustat_exit` does not call it, so what was sampled after the
last report is lost with the module.
-/

namespace Pnl.Kcpustat

open Kthreads Loops Runs

variable {nrStats : Nat} {p : Params}

/-- The samples allocated and not freed are those on `my_head`. -/
structure Module.Owns (md : Module nrStats) : Prop where
  valid : md.thread.state.Valid
  balance : (md.thread.state.myHead ++ md.thread.state.freed).Perm md.allocated

/-- `kzalloc` returns nothing that is in use. -/
def Iteration.AllowedIn (md : Option (Module nrStats)) (i : Iteration nrStats) : Prop :=
  i.Allowed (md.map Module.thread)

instance Iteration.decidableAllowedIn (md : Option (Module nrStats)) (i : Iteration nrStats) :
    Decidable (i.AllowedIn md) :=
  inferInstanceAs (Decidable (i.Allowed (md.map Module.thread)))

/-- In a run of the module every sample is owned after each iteration, and freed once when
`kcpustat_exit` returns. -/
def LeaksNothing (p : Params) (kthreadRun : Addr) (iterations : List (Iteration nrStats)) : Prop :=
  (∀ md ∈ states (Module.step p) (some (kcpustatInit kthreadRun).1) iterations,
      ∃ md', md = some md' ∧ md'.Owns)
    ∧ ∀ md ∈ final (Module.step p) (some (kcpustatInit kthreadRun).1) iterations,
        ∀ md' ∈ md.kcpustatExit, md'.thread.state.freed.Perm md'.allocated

/-- The samples taken before the stop or the first allocation that fails. -/
def samplesTaken (kthreadRun : Addr) (iterations : List (Iteration nrStats)) : Nat :=
  if isErr kthreadRun then 0 else (iterations.takeWhile fun i => i.kzalloc.isSome).length

/-- The samples that the thread has still to take. -/
def Module.samplesLeft (md : Module nrStats) (iterations : List (Iteration nrStats)) : Nat :=
  if md.thread.returned.isSome then 0 else samplesTaken md.kcpustatThread iterations

/-! ### One iteration -/

/-- Nothing is on the list just after a report. -/
structure Module.Sampling (p : Params) (md : Module nrStats) : Prop extends md.Owns where
  pending : md.thread.state.myHead = [] ↔ p.Prints md.thread.n

theorem perm_freed_iff {md : Module nrStats} (h : md.Owns) :
    md.thread.state.freed.Perm md.allocated ↔ md.thread.state.myHead = [] := by
  constructor
  · intro hfreed
    have hlength := (h.balance.trans hfreed.symm).length_eq
    rw [List.length_append] at hlength
    exact List.length_eq_zero_iff.mp (by omega)
  · intro hnil
    have hbalance := h.balance
    rwa [hnil, List.nil_append] at hbalance

section Iterate

variable {md : Module nrStats} (h : md.Sampling p)

include h

/-- A sample is saved: it is on the list, or in the report with those that were. -/
theorem sampled (hperiod : 1 ≤ p.period) (hthread : isErr md.kcpustatThread = false)
    (hrunning : md.thread.returned = none) {i : Iteration nrStats} {a : Addr}
    (ha : i.kzalloc = some a) (hfresh : a ∉ md.thread.state.live) :
    ∃ md', md.iterate p i = some md' ∧ md'.Sampling p ∧ md'.thread.returned = none
      ∧ md'.thread.n = md.thread.n + 1 ∧ md'.kcpustatThread = md.kcpustatThread := by
  obtain ⟨s, hsave, hvalid, hhead, -, hfreed⟩ :=
    saveStats_spec h.valid hfresh i.kcpustatCpu
  rw [← ha] at hsave
  have hbalance : (s.myHead ++ s.freed).Perm (a :: md.allocated) := by
    rw [hhead, hfreed, List.append_assoc]
    exact List.perm_middle.trans (h.balance.cons a)
  have hstart : md.iterate p i = (md.thread.iterate p i).map fun t =>
      { md with thread := t, allocated := a :: md.allocated } := by
    simp only [Module.iterate, hthread, hrunning, ha, Option.map_eq_bind]
    rfl
  rw [hstart, iterate_of_saved hperiod hrunning hsave]
  by_cases hprints : p.Prints (md.thread.n + 1)
  · obtain ⟨s', hprint, hempty, hfreed', hvalid'⟩ := printStats_spec hvalid (by simp [hhead])
    rw [if_pos hprints, hprint]
    refine ⟨_, rfl, ⟨⟨hvalid', ?_⟩, iff_of_true hempty hprints⟩, hrunning, rfl, rfl⟩
    dsimp only
    rw [hempty, List.nil_append, hfreed']
    exact ((List.reverse_perm s.myHead).append_right s.freed).trans hbalance
  · rw [if_neg hprints]
    refine ⟨_, rfl, ⟨⟨hvalid, hbalance⟩, iff_of_false ?_ hprints⟩, hrunning, rfl, rfl⟩
    simp [hhead]

theorem failed (hthread : isErr md.kcpustatThread = false) (hrunning : md.thread.returned = none)
    {i : Iteration nrStats} (hnone : i.kzalloc = none) :
    ∃ md', md.iterate p i = some md' ∧ md'.Sampling p ∧ md'.thread.returned = some (-enomem)
      ∧ md'.thread.n = md.thread.n ∧ md'.kcpustatThread = md.kcpustatThread := by
  refine ⟨{ md with thread := { md.thread with returned := some (-enomem) } }, ?_,
    ⟨⟨h.valid, h.balance⟩, h.pending⟩, rfl, rfl, rfl⟩
  simp only [Module.iterate, Thread.iterate, hthread, hrunning, hnone, saveStats]
  rfl

/-- **An iteration keeps the samples owned**, and takes one of those that were left to take. -/
theorem iterate_sampling (hperiod : 1 ≤ p.period) {i : Iteration nrStats}
    (hallowed : i.AllowedIn (some md)) :
    ∃ md', md.iterate p i = some md' ∧ md'.Sampling p ∧ md'.kcpustatThread = md.kcpustatThread
      ∧ ∀ is, md'.thread.n + Int32.ofNat (md'.samplesLeft is)
        = md.thread.n + Int32.ofNat (md.samplesLeft (i :: is)) := by
  by_cases hstopped : isErr md.kcpustatThread ∨ md.thread.returned.isSome
  · refine ⟨md, by rw [Module.iterate, if_pos hstopped], h, rfl, fun is => ?_⟩
    have hnone : ∀ is, md.samplesLeft is = 0 := by
      intro is
      rcases hstopped with herr | hreturned
      · simp [Module.samplesLeft, samplesTaken, herr]
      · rw [Module.samplesLeft, if_pos hreturned]
    rw [hnone, hnone]
  · rw [not_or, Bool.not_eq_true, Option.not_isSome_iff_eq_none] at hstopped
    obtain ⟨hthread, hrunning⟩ := hstopped
    have hleft : ∀ is, md.samplesLeft is = (is.takeWhile fun i => i.kzalloc.isSome).length := by
      intro is
      simp [Module.samplesLeft, samplesTaken, hthread, hrunning]
    cases ha : i.kzalloc with
    | none =>
        obtain ⟨md', hrun, hsampling, hreturned, hn, hsame⟩ := failed h hthread hrunning ha
        refine ⟨md', hrun, hsampling, hsame, fun is => ?_⟩
        rw [hn, hleft, List.takeWhile_cons_of_neg (by simp [ha])]
        simp [Module.samplesLeft, hreturned]
    | some a =>
        obtain ⟨md', hrun, hsampling, hreturned, hn, hsame⟩ :=
          sampled h hperiod hthread hrunning ha (hallowed md.thread rfl a ha)
        refine ⟨md', hrun, hsampling, hsame, fun is => ?_⟩
        rw [hn, hleft, List.takeWhile_cons_of_pos (by simp [ha]), count_cons]
        simp [Module.samplesLeft, samplesTaken, hreturned, hsame, hthread]

end Iterate

/-! ### Runs -/

section Runs

variable {md : Module nrStats} (h : md.Sampling p) (hperiod : 1 ≤ p.period)
  {iterations : List (Iteration nrStats)}
  (hallowed : StepsMeet (Module.step p) (fun md i => i.AllowedIn md) (some md) iterations)

include h hperiod hallowed

theorem states_sampling :
    ∀ md' ∈ states (Module.step p) (some md) iterations, ∃ md₁, md' = some md₁ ∧ md₁.Sampling p := by
  have hkeep : ∀ (md : Option (Module nrStats)) (i : Iteration nrStats),
      (∃ md₁, md = some md₁ ∧ md₁.Sampling p) → i.AllowedIn md →
        ∃ md₁, Module.step p md i = some md₁ ∧ md₁.Sampling p := by
    rintro _ i ⟨md, rfl, h⟩ hallowed
    obtain ⟨md', hrun, h', -⟩ := iterate_sampling h hperiod hallowed
    exact ⟨md', hrun, h'⟩
  exact invariant hkeep ⟨md, rfl, h⟩ hallowed

theorem final_count :
    ∃ md', final (Module.step p) (some md) iterations = some md' ∧ md'.Sampling p
      ∧ md'.kcpustatThread = md.kcpustatThread
      ∧ md'.thread.n = md.thread.n + Int32.ofNat (md.samplesLeft iterations) := by
  induction iterations generalizing md with
  | nil => exact ⟨md, rfl, h, rfl, by simp [Module.samplesLeft, samplesTaken]⟩
  | cons i iterations ih =>
      obtain ⟨md₁, hrun, h₁, hsame₁, hcount⟩ := iterate_sampling h hperiod hallowed.1
      have hstep : Module.step p (some md) i = some md₁ := hrun
      obtain ⟨md', hfinal, h', hsame, hn⟩ := ih h₁ (hstep ▸ hallowed.2)
      refine ⟨md', ?_, h', hsame.trans hsame₁, ?_⟩
      · rw [final, List.foldl_cons, hstep]
        exact hfinal
      · rw [hn, hcount]

end Runs

theorem sampling_init (kthreadRun : Addr) :
    ((kcpustatInit kthreadRun).1 : Module nrStats).Sampling p :=
  ⟨⟨valid_empty, List.Perm.refl []⟩, iff_of_true rfl UInt32.zero_mod⟩

/-! ### Unloading -/

theorem kcpustatExit_of_isErr {md : Module nrStats} (hthread : isErr md.kcpustatThread = true) :
    md.kcpustatExit = none := by
  have hne : md.kcpustatThread ≠ 0 := by
    intro hzero
    rw [hzero] at hthread
    exact absurd hthread (by decide)
  rw [Module.kcpustatExit, if_pos hne, Module.kthreadStop, if_pos hthread]

/-- `kcpustat_exit` neither frees a sample nor looks at the list. -/
theorem kcpustatExit_spec {md : Module nrStats} (hthread : isErr md.kcpustatThread = false) :
    ∃ md', md.kcpustatExit = some md' ∧ md'.thread.state = md.thread.state
      ∧ md'.allocated = md.allocated := by
  rw [Module.kcpustatExit]
  split_ifs with hnull
  · rw [Module.kthreadStop, if_neg (by simp [hthread])]
    exact ⟨_, rfl, rfl, rfl⟩
  · exact ⟨md, rfl, rfl, rfl⟩

theorem loaded_period {hz : UInt32} (hhz : 1 ≤ hz) : (Params.loaded hz).period = 10 := by
  have hone : hz / hz = 1 := by
    apply UInt32.toNat_inj.mp
    rw [UInt32.toNat_div]
    exact Nat.div_self (UInt32.le_iff_toNat_le.mp hhz)
  rw [Params.period, Params.loaded, hone, UInt32.mul_one]

theorem prints_loaded_iff {hz : UInt32} (hhz : 1 ≤ hz) (n : Nat) :
    (Params.loaded hz).Prints (Int32.ofNat n) ↔ n % 2 ^ 32 % 10 = 0 := by
  rw [Params.Prints, loaded_period hhz, ← UInt32.toNat_inj, UInt32.toNat_mod]
  rfl

/-- **kcpustat leaks nothing exactly when it is unloaded just after a report**, and otherwise what
it sampled since. -/
theorem leaksNothing_iff {hz : UInt32} (hhz : 1 ≤ hz) (kthreadRun : Addr)
    {iterations : List (Iteration nrStats)}
    (hallowed : StepsMeet (Module.step (Params.loaded hz)) (fun md i => i.AllowedIn md)
      (some (kcpustatInit kthreadRun).1) iterations) :
    LeaksNothing (Params.loaded hz) kthreadRun iterations
      ↔ samplesTaken kthreadRun iterations % 2 ^ 32 % 10 = 0 := by
  have hperiod : 1 ≤ (Params.loaded hz).period := by
    rw [loaded_period hhz]
    decide
  have hstart : ((kcpustatInit kthreadRun).1 : Module nrStats).Sampling (Params.loaded hz) :=
    sampling_init kthreadRun
  have hstates := states_sampling hstart hperiod hallowed
  obtain ⟨md, hfinal, hsampling, hthread, hn⟩ := final_count hstart hperiod hallowed
  have hsame : md.kcpustatThread = kthreadRun := hthread
  have hn' : md.thread.n = Int32.ofNat (samplesTaken kthreadRun iterations) := by
    rw [hn]
    exact Int32.zero_add _
  rw [LeaksNothing, and_iff_right fun md' hmd' => ?_, hfinal]
  · cases herr : isErr kthreadRun with
    | true =>
        refine iff_of_true ?_ (by simp [samplesTaken, herr])
        rintro _ ⟨⟩ md' hexit
        rw [kcpustatExit_of_isErr (hsame ▸ herr)] at hexit
        contradiction
    | false =>
        have hthread' : isErr md.kcpustatThread = false := by rw [hsame, herr]
        obtain ⟨md', hexit, hstate, hallocated⟩ := kcpustatExit_spec hthread'
        rw [← prints_loaded_iff hhz, ← hn', ← hsampling.pending, ← perm_freed_iff hsampling.toOwns]
        simp [hexit, hstate, hallocated]
  · obtain ⟨md₁, rfl, h₁⟩ := hstates md' hmd'
    exact ⟨md₁, rfl, h₁.toOwns⟩

def tenSamples : List (Iteration 1) :=
  (List.range 10).map fun k => iteration (16 * (k + 1)) 1

theorem leaksNothing_tenSamples : LeaksNothing (Params.loaded 250) 0x3000 tenSamples :=
  (leaksNothing_iff (by decide) 0x3000 (by decide)).mpr (by decide)

/-- The module is unloaded after its first sample. -/
theorem not_leaksNothing_oneSample :
    StepsMeet (Module.step (Params.loaded 250)) (fun md i => i.AllowedIn md)
        (some (kcpustatInit 0x3000).1) [iteration 16 1]
      ∧ ¬ LeaksNothing (Params.loaded 250) 0x3000 [iteration 16 1] := by
  refine ⟨by decide, ?_⟩
  rintro ⟨-, hfreed⟩
  have hperm := hfreed _ rfl _ rfl
  exact absurd hperm.length_eq (by decide)

end Pnl.Kcpustat
