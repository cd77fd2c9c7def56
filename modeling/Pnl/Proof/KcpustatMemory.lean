import Pnl.Proof.KcpustatLeaks

/-!
# How much memory kcpustat holds

Between two iterations the module holds as many samples as `n` leaves modulo the period of the
reports. That stays so when `n` wraps around, whatever the period: zero is a multiple of it, so the
list is reported and emptied there too. A period of zero is the one way to go wrong, at the first
sample.
-/

namespace Pnl.Kcpustat

open Kthreads Runs

variable {nrStats : Nat} {p : Params}

/-- What is owned are the samples since the last report. -/
structure Module.Sized (p : Params) (md : Module nrStats) : Prop extends md.Owns where
  count : md.thread.state.myHead.length = (md.thread.n.toUInt32 % p.period).toNat

theorem add_one_mod {a m : Nat} (h : (a + 1) % m ≠ 0) : (a + 1) % m = a % m + 1 := by
  have hsplit := Nat.div_add_mod (a + 1) m
  have ha : a = m * ((a + 1) / m) + ((a + 1) % m - 1) := by omega
  have hlt : (a + 1) % m - 1 < m ∨ m = 0 := by
    rcases Nat.eq_zero_or_pos m with hzero | hpos
    · exact Or.inr hzero
    · have hrest := Nat.mod_lt (a + 1) hpos
      exact Or.inl (by omega)
  rcases hlt with hlt | rfl
  · have hrest : a % m = (a + 1) % m - 1 := by
      conv_lhs => rw [ha, Nat.mul_add_mod, Nat.mod_eq_of_lt hlt]
    omega
  · rw [Nat.mod_zero, Nat.mod_zero]

/-- A count that is no multiple of the period leaves one more than the count before. -/
theorem mod_of_not_prints {n : Int32} (h : ¬ p.Prints (n + 1)) :
    ((n + 1).toUInt32 % p.period).toNat = (n.toUInt32 % p.period).toNat + 1 := by
  have hadd : (n + 1).toUInt32.toNat = (n.toUInt32.toNat + 1) % 2 ^ 32 :=
    UInt32.toNat_add n.toUInt32 1
  have hn := n.toUInt32.toNat_lt
  have hne : (n + 1).toUInt32.toNat % p.period.toNat ≠ 0 := by
    rw [← UInt32.toNat_mod]
    exact fun hzero => h (UInt32.toNat_inj.mp hzero)
  -- a counter that wraps around is zero, a multiple of every period
  have hwrap : (n.toUInt32.toNat + 1) % 2 ^ 32 = n.toUInt32.toNat + 1 := by
    apply Nat.mod_eq_of_lt
    by_contra hlarge
    apply hne
    rw [hadd, show n.toUInt32.toNat + 1 = 2 ^ 32 by omega, Nat.mod_self, Nat.zero_mod]
  rw [hadd, hwrap] at hne
  rw [UInt32.toNat_mod, UInt32.toNat_mod, hadd, hwrap, add_one_mod hne]

/-- Just after a report nothing is held. -/
theorem Module.Sampling.sized {md : Module nrStats} (h : md.Sampling p)
    (hprints : p.Prints md.thread.n) : md.Sized p := by
  refine ⟨h.toOwns, ?_⟩
  rw [h.pending.mpr hprints, hprints]
  rfl

/-! ### One iteration -/

section Iterate

variable {md : Module nrStats} (h : md.Sized p)

include h

theorem Module.Sized.sampling : md.Sampling p := by
  refine ⟨h.toOwns, ?_⟩
  rw [← List.length_eq_zero_iff, h.count, Params.Prints, ← UInt32.toNat_inj]
  rfl

theorem Module.Sized.iterate (hperiod : 1 ≤ p.period) {i : Iteration nrStats}
    (hallowed : i.AllowedIn (some md)) : ∃ md', md.iterate p i = some md' ∧ md'.Sized p := by
  obtain ⟨md', hrun, hsampling, -⟩ := iterate_sampling h.sampling hperiod hallowed
  refine ⟨md', hrun, ?_⟩
  by_cases hstopped : isErr md.kcpustatThread ∨ md.thread.returned.isSome
  · rw [Module.iterate, if_pos hstopped, Option.some.injEq] at hrun
    exact hrun ▸ h
  · have hrunning : md.thread.returned = none :=
      Option.not_isSome_iff_eq_none.mp fun hreturned => hstopped (Or.inr hreturned)
    rw [Module.iterate, if_neg hstopped] at hrun
    cases ha : i.kzalloc with
    | none =>
        have hfail : md.thread.iterate p i = some { md.thread with returned := some (-enomem) } := by
          simp only [Thread.iterate, hrunning, ha, saveStats]
          rfl
        simp only [hfail] at hrun
        obtain rfl := Option.some.inj hrun
        exact ⟨hsampling.toOwns, h.count⟩
    | some a =>
        obtain ⟨s, hsave, hvalid, hhead, -⟩ :=
          saveStats_spec h.valid (hallowed md.thread rfl a ha) i.kcpustatCpu
        rw [← ha] at hsave
        rw [iterate_of_saved hperiod hrunning hsave] at hrun
        by_cases hprints : p.Prints (md.thread.n + 1)
        · obtain ⟨s', hprint, -⟩ := printStats_spec hvalid (by simp [hhead])
          simp only [if_pos hprints, hprint] at hrun
          obtain rfl := Option.some.inj hrun
          exact hsampling.sized hprints
        · simp only [if_neg hprints] at hrun
          obtain rfl := Option.some.inj hrun
          refine ⟨hsampling.toOwns, ?_⟩
          dsimp only
          rw [mod_of_not_prints hprints, ← h.count, hhead, List.length_append]
          rfl

end Iterate

/-! ### Runs -/

theorem sized_init (kthreadRun : Addr) :
    ((kcpustatInit kthreadRun).1 : Module nrStats).Sized p := by
  have hprints : p.Prints 0 := UInt32.zero_mod
  exact (sampling_init kthreadRun).sized hprints

/-- Without a period the first sample ends in a division by zero. -/
theorem iterate_of_no_period (hperiod : p.period = 0) {md : Module nrStats}
    (hthread : isErr md.kcpustatThread = false) (hrunning : md.thread.returned = none)
    (hs : md.thread.state.Valid) {i : Iteration nrStats} (hallowed : i.AllowedIn (some md))
    (hsuccess : i.kzalloc.isSome) : md.iterate p i = none := by
  obtain ⟨a, ha⟩ := Option.isSome_iff_exists.mp hsuccess
  obtain ⟨s, hsave, -⟩ := saveStats_spec hs (hallowed md.thread rfl a ha) i.kcpustatCpu
  rw [← ha] at hsave
  simp [Module.iterate, Thread.iterate, hthread, hrunning, hsave, hperiod]

/-- A thread that does not run, or has returned, changes nothing any more. -/
theorem states_idle {md : Module nrStats} (h : md.Sized p)
    (hidle : isErr md.kcpustatThread ∨ md.thread.returned.isSome)
    (iterations : List (Iteration nrStats)) :
    ∀ md' ∈ states (Module.step p) (some md) iterations, ∃ md₁, md' = some md₁ ∧ md₁.Sized p := by
  have hkeep (md' : Option (Module nrStats)) (i : Iteration nrStats) (hsame : md' = some md)
      (_ : True) : Module.step p md' i = some md := by
    rw [hsame, Module.step, Option.bind_some, Module.iterate, if_pos hidle]
  have henv : StepsMeet (Module.step p) (fun _ _ => True) (some md) iterations :=
    stepsMeet_of_forall fun _ _ => trivial
  intro md' hmd'
  exact ⟨md, invariant hkeep rfl henv md' hmd', h⟩

/-- **How many samples the module holds.** A run of the module goes right and holds `n` modulo the
period samples in each of its states, exactly when the period is not zero or no sample is taken. -/
theorem sized_iff (kthreadRun : Addr) {iterations : List (Iteration nrStats)}
    (hallowed : StepsMeet (Module.step p) (fun md i => i.AllowedIn md)
      (some (kcpustatInit kthreadRun).1) iterations) :
    (∀ md ∈ states (Module.step p) (some (kcpustatInit kthreadRun).1) iterations,
        ∃ md', md = some md' ∧ md'.Sized p)
      ↔ 1 ≤ p.period ∨ samplesTaken kthreadRun iterations = 0 := by
  have hstart : ((kcpustatInit kthreadRun).1 : Module nrStats).Sized p := sized_init kthreadRun
  constructor
  · intro hsized
    by_contra hbad
    rw [not_or] at hbad
    obtain ⟨hperiod, htaken⟩ := hbad
    have hzero : p.period = 0 := by
      apply UInt32.toNat_inj.mp
      rw [UInt32.le_iff_toNat_le] at hperiod
      exact Nat.lt_one_iff.mp (Nat.lt_of_not_le hperiod)
    cases hthread : isErr kthreadRun with
    | true => exact htaken (by simp [samplesTaken, hthread])
    | false =>
        cases iterations with
        | nil => exact htaken (by simp [samplesTaken])
        | cons i iterations =>
            have hsuccess : i.kzalloc.isSome := by
              by_contra hnone
              exact htaken (by simp [samplesTaken, hnone])
            have hnone : Module.step p (some (kcpustatInit kthreadRun).1) i = none :=
              iterate_of_no_period hzero hthread rfl hstart.valid hallowed.1 hsuccess
            obtain ⟨md', hmd', -⟩ := (forall_states_iff.mp hsized).2.1
            rw [hnone] at hmd'
            contradiction
  · rintro (hperiod | htaken)
    · have hkeep (md : Option (Module nrStats)) (i : Iteration nrStats)
          (h : ∃ md', md = some md' ∧ md'.Sized p) (hi : i.AllowedIn md) :
          ∃ md', Module.step p md i = some md' ∧ md'.Sized p := by
        obtain ⟨md', rfl, h⟩ := h
        exact h.iterate hperiod hi
      exact invariant hkeep ⟨_, rfl, hstart⟩ hallowed
    · cases hthread : isErr kthreadRun with
      | true => exact states_idle hstart (Or.inl hthread) iterations
      | false =>
          cases iterations with
          | nil => exact forall_states_iff.mpr ⟨⟨_, rfl, hstart⟩, trivial⟩
          | cons i iterations =>
              have hnone : i.kzalloc = none := by
                by_contra hne
                have hsuccess := Option.isSome_iff_ne_none.mpr hne
                simp [samplesTaken, hthread, hsuccess] at htaken
              obtain ⟨md', hrun, hsampling, hreturned, hn, -⟩ :=
                failed hstart.sampling hthread rfl hnone
              have hprints : p.Prints md'.thread.n := hn ▸ UInt32.zero_mod
              have hstep : Module.step p (some (kcpustatInit kthreadRun).1) i = some md' := hrun
              rw [states, List.scanl_cons, List.forall_mem_cons, hstep]
              refine ⟨⟨_, rfl, hstart⟩, ?_⟩
              exact states_idle (hsampling.sized hprints) (Or.inr (by simp [hreturned])) iterations

/-- Twenty-three samples, two reports. -/
def someSamples : List (Iteration 1) :=
  (List.range 23).map fun k => iteration (16 * (k + 1)) 1

theorem sized_someSamples :
    ∃ md', final (Module.step (Params.loaded 250)) (some (kcpustatInit 0x3000).1) someSamples
      = some md' ∧ md'.Sized (Params.loaded 250) :=
  (sized_iff 0x3000 (by decide)).mpr (Or.inl (by decide)) _ final_mem_states

end Pnl.Kcpustat
