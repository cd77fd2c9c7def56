import Mathlib.Algebra.Ring.Pi
import Mathlib.Data.UInt
import Pnl.Kcpustat
import Pnl.Lib.Loops
import Pnl.Lib.Runs
import Pnl.Lib.Telescopes

/-!
# What the reports of kcpustat add up to

`print_stats` adds up the increments between the samples on the list and empties the list. The first
sample after a report is the baseline of the next, so what was counted in between is in no report.
-/

namespace Pnl.Kcpustat

open Loops Runs Telescopes

open scoped UInt64.CommRing

variable {nrStats : Nat} {s : State nrStats}

/-- The samples on the list are the live ones. -/
structure State.Valid (s : State nrStats) : Prop where
  nodup : s.myHead.Nodup
  live : ∀ a, a ∈ s.live ↔ a ∈ s.myHead

/-- What the samples on the list hold, from the oldest on. -/
def State.stats (s : State nrStats) : List (Cpustat nrStats) := s.myHead.filterMap s.stat

/-! ### Operations -/

theorem mem_live_iff {a : Addr} : a ∈ s.live ↔ ∃ stat, s.stat a = some stat :=
  Option.isSome_iff_exists

theorem touch_of_live {as : List Addr} (h : ∀ a ∈ as, a ∈ s.live) : s.touch as = some () := if_pos h

theorem write_live {a : Addr} (ha : a ∈ s.live) (c : Cpustat nrStats) :
    (s.write a c).live = s.live := by
  ext b
  by_cases hb : b = a
  · subst hb
    simpa [State.live, State.write] using ha
  · simp [State.live, State.write, hb]

theorem kfree_of_live {a : Addr} (ha : a ∈ s.live) :
    s.kfree a = some { s with stat := Function.update s.stat a none, freed := a :: s.freed } := by
  rw [State.kfree, touch_of_live (by simpa using ha)]
  rfl

theorem listDel_of_head {a : Addr} {as : List Addr} (hhead : s.myHead = a :: as)
    (hlive : ∀ b ∈ s.myHead, b ∈ s.live) : s.listDel a = some { s with myHead := as } := by
  have hbefore : s.myHead.takeWhile (· ≠ a) = [] := by simp [hhead]
  have hafter : (s.myHead.dropWhile (· ≠ a)).tail = as := by simp [hhead]
  have htouch : s.touch (a :: as.head?.toList) = some () := by
    apply touch_of_live
    intro b hb
    apply hlive
    rw [hhead]
    rcases List.mem_cons.mp hb with rfl | hb
    · exact List.mem_cons_self
    · exact List.mem_cons_of_mem a (List.mem_of_head? (Option.mem_toList.mp hb))
  simp only [State.listDel, hbefore, hafter]
  simp [htouch]

theorem free_head {a : Addr} {as : List Addr} (hhead : s.myHead = a :: as) (hnodup : (a :: as).Nodup)
    (hlive : ∀ b ∈ a :: as, b ∈ s.live) :
    ∃ s₁ s', s.listDel a = some s₁ ∧ s₁.kfree a = some s' ∧ s'.myHead = as
      ∧ s'.freed = a :: s.freed ∧ (∀ b, s'.stat b = if b = a then none else s.stat b)
      ∧ (∀ b ∈ as, s'.stat b = s.stat b) ∧ ∀ b ∈ as, b ∈ s'.live := by
  have hdel := listDel_of_head hhead (hhead ▸ hlive)
  have hfree := kfree_of_live (s := { s with myHead := as }) (hlive a List.mem_cons_self)
  have hother : ∀ b ∈ as, Function.update s.stat a none b = s.stat b := by
    intro b hb
    apply Function.update_of_ne
    rintro rfl
    exact (List.nodup_cons.mp hnodup).1 hb
  refine ⟨_, _, hdel, hfree, rfl, rfl, fun b => Function.update_apply _ _ _ _, hother, ?_⟩
  intro b hb
  obtain ⟨stat, hstat⟩ := mem_live_iff.mp (hlive b (List.mem_cons_of_mem a hb))
  exact mem_live_iff.mpr ⟨stat, (hother b hb).trans hstat⟩

theorem listDelInit_of_nil (hhead : s.myHead = []) : s.listDelInit = some s := by
  have htouch : s.touch [] = some () := touch_of_live (by simp)
  have hsame : { s with myHead := [] } = s := by rw [← hhead]
  simp [State.listDelInit, hhead, htouch, hsame]

/-! ### One report -/

theorem write_stat {a b : Addr} {c : Cpustat nrStats} :
    (s.write a c).stat b = if b = a then some c else s.stat b := by
  simp only [State.write, Function.update_apply]

theorem makeNoncumulative_cons_cons {first k prev : Addr} {ks : List Addr}
    {stat prevStat : Cpustat nrStats} (hne : k ≠ first) (hstat : s.stat k = some stat)
    (hprev : s.stat prev = some prevStat) :
    makeNoncumulative s first (k :: prev :: ks)
      = makeNoncumulative (s.write k (stat - prevStat)) first (prev :: ks) := by
  rw [makeNoncumulative, hstat, Option.bind_eq_bind, Option.bind_some, if_pos hne, List.head?_cons,
    Option.bind_eq_bind, Option.bind_some, hprev, Option.bind_some]

/-- **The first loop makes the samples noncumulative**, but for the first one. -/
theorem makeNoncumulative_spec {first : Addr} {ks : List Addr} (hnodup : ks.Nodup)
    (hlive : ∀ k ∈ ks, k ∈ s.live) (hfirst : ks.getLast? = some first) :
    ∃ s', makeNoncumulative s first ks = some s' ∧ s'.myHead = s.myHead ∧ s'.freed = s.freed
      ∧ s'.live = s.live ∧ (∀ a ∉ ks, s'.stat a = s.stat a)
      ∧ ks.dropLast.filterMap s'.stat = (increments (ks.reverse.filterMap s.stat)).reverse := by
  induction ks generalizing s with
  | nil => simp at hfirst
  | cons k ks ih =>
      obtain ⟨hk, hnodup⟩ := List.nodup_cons.mp hnodup
      have hklive := hlive k List.mem_cons_self
      obtain ⟨stat, hstat⟩ := mem_live_iff.mp hklive
      cases ks with
      | nil =>
          obtain rfl : k = first := by simpa using hfirst
          refine ⟨s, by simp [makeNoncumulative, hstat], rfl, rfl, rfl, fun _ _ => rfl, ?_⟩
          simp [hstat, increments]
      | cons prev ks =>
          have hlast : (prev :: ks).getLast? = some first := by simpa using hfirst
          have hne : k ≠ first := by
            rintro rfl
            exact hk (List.mem_of_getLast? hlast)
          obtain ⟨prevStat, hprev⟩ := mem_live_iff.mp (hlive prev (by simp))
          set s₁ := s.write k (stat - prevStat) with hs₁
          have hlive₁ : s₁.live = s.live := write_live hklive _
          obtain ⟨s', hrun, hhead, hfreed, hsame, hrest, hdiff⟩ := ih (s := s₁) hnodup
            (fun a ha => hlive₁.symm ▸ hlive a (List.mem_cons_of_mem k ha)) hlast
          refine ⟨s', ?_, hhead, hfreed, hsame.trans hlive₁, fun a ha => ?_, ?_⟩
          · rw [makeNoncumulative_cons_cons hne hstat hprev, hrun]
          · rw [List.mem_cons, not_or] at ha
            rw [hrest a ha.2, hs₁, write_stat, if_neg ha.1]
          · have hold : (prev :: ks).reverse.filterMap s₁.stat
                = (prev :: ks).reverse.filterMap s.stat := by
              apply List.filterMap_congr
              intro a ha
              have hak : a ≠ k := fun heq => hk (heq ▸ List.mem_reverse.mp ha)
              rw [hs₁, write_stat, if_neg hak]
            have hk' : s'.stat k = some (stat - prevStat) := by
              rw [hrest k hk, hs₁, write_stat, if_pos rfl]
            have hlast' : ((prev :: ks).reverse.filterMap s.stat).getLast? = some prevStat := by
              simp [List.filterMap_append, hprev]
            calc ((k :: prev :: ks).dropLast).filterMap s'.stat
              _ = (stat - prevStat) :: (prev :: ks).dropLast.filterMap s'.stat :=
                List.filterMap_cons_some hk'
              _ = (stat - prevStat) :: (increments ((prev :: ks).reverse.filterMap s.stat)).reverse :=
                by rw [hdiff, hold]
              _ = (increments ((prev :: ks).reverse.filterMap s.stat ++ [stat])).reverse := by
                have hhead : ([stat] : List (Cpustat nrStats)).head? = some stat := rfl
                rw [increments_append hlast' hhead]
                simp [increments]
              _ = (increments ((k :: prev :: ks).reverse.filterMap s.stat)).reverse := by
                rw [List.reverse_cons (a := k), List.filterMap_append, List.filterMap_cons_some hstat,
                  List.filterMap_nil]

/-- **The second loop adds up the samples on the list and frees each of them once.** -/
theorem sumStats_spec {ks : List Addr} (hhead : s.myHead = ks) (hnodup : ks.Nodup)
    (hlive : ∀ k ∈ ks, k ∈ s.live) (sum : Cpustat nrStats) (nr : Int32) :
    ∃ s', sumStats s ks sum nr
        = some (s', sum + (ks.filterMap s.stat).sum, nr + Int32.ofNat ks.length)
      ∧ s'.myHead = [] ∧ s'.freed = ks.reverse ++ s.freed
      ∧ ∀ a, s'.stat a = if a ∈ ks then none else s.stat a := by
  induction ks generalizing s sum nr with
  | nil => exact ⟨s, by simp [sumStats], hhead, rfl, by simp⟩
  | cons k ks ih =>
      obtain ⟨stat, hstat⟩ := mem_live_iff.mp (hlive k List.mem_cons_self)
      have htouch : s.touch ks.head?.toList = some () := by
        apply touch_of_live
        intro a ha
        exact hlive a (List.mem_cons_of_mem k (List.mem_of_head? (Option.mem_toList.mp ha)))
      obtain ⟨s₁, s₂, hdel, hfree, hhead₂, hfreed₂, hstat₂, hother, hlive₂⟩ :=
        free_head hhead hnodup hlive
      obtain ⟨s', hrun, hhead', hfreed, hrest⟩ :=
        ih hhead₂ hnodup.of_cons hlive₂ (sum + stat) (nr + 1)
      refine ⟨s', ?_, hhead', ?_, fun a => ?_⟩
      · have hturn : sumStats s (k :: ks) sum nr = sumStats s₂ ks (sum + stat) (nr + 1) := by
          simp only [sumStats, hstat, htouch, hdel, hfree, Option.bind_eq_bind, Option.bind_some]
        rw [hturn, hrun, List.filterMap_congr hother, List.filterMap_cons_some hstat, List.sum_cons,
          add_assoc, count_cons]
      · rw [hfreed, hfreed₂, List.reverse_cons, List.append_assoc]
        rfl
      · rw [hrest, hstat₂]
        by_cases ha : a = k <;> simp [ha]

theorem State.Valid.stat_eq_none (hs : s.Valid) {a : Addr} (ha : a ∉ s.myHead) : s.stat a = none := by
  rw [← Option.not_isSome_iff_eq_none]
  exact fun hlive => ha ((hs.live a).mp hlive)

/-- **A report adds up the increments between the samples on the list**, frees each of them once and
touches no other. -/
theorem printStats_run (hnodup : s.myHead.Nodup) (hlive : ∀ a ∈ s.myHead, a ∈ s.live)
    (hne : s.myHead ≠ []) :
    ∃ s', printStats s
        = some (s', (increments s.stats).sum, Int32.ofNat (s.myHead.length - 1))
      ∧ s'.myHead = [] ∧ s'.freed = s.myHead.reverse ++ s.freed
      ∧ ∀ a, s'.stat a = if a ∈ s.myHead then none else s.stat a := by
  obtain ⟨first, rest, hhead⟩ := List.exists_cons_of_ne_nil hne
  have hsome : s.myHead.head? = some first := by rw [hhead, List.head?_cons]
  have hlast : s.myHead.reverse.getLast? = some first := by rw [List.getLast?_reverse, hsome]
  obtain ⟨s₁, hrun₁, hhead₁, hfreed₁, hlive₁, hrest₁, hdiff⟩ :=
    makeNoncumulative_spec (List.nodup_reverse.mpr hnodup)
      (fun a ha => hlive a (List.mem_reverse.mp ha)) hlast
  have hstats : rest.filterMap s₁.stat = increments s.stats := by
    have hreverse : (rest.filterMap s₁.stat).reverse = (increments s.stats).reverse := by
      rw [State.stats, ← List.reverse_reverse s.myHead, ← hdiff, hhead, List.dropLast_reverse,
        List.tail_cons, List.filterMap_reverse]
    exact List.reverse_injective hreverse
  obtain ⟨s₂, s₃, hdel, hfree, hhead₃, hfreed₃, hstat₃, hother, hlive₃⟩ :=
    free_head (hhead₁.trans hhead) (hhead ▸ hnodup) (hlive₁ ▸ hhead ▸ hlive)
  obtain ⟨s', hrun, hhead', hfreed, hrest⟩ :=
    sumStats_spec hhead₃ (hhead ▸ hnodup).of_cons hlive₃ (fun _ => 0) 0
  have hnr : 0 + Int32.ofNat rest.length = Int32.ofNat (s.myHead.length - 1) := by
    rw [hhead, List.length_cons, Nat.add_sub_cancel, Int32.zero_add]
  have hsum : (fun _ => 0) + (increments s.stats).sum = (increments s.stats).sum := zero_add _
  rw [List.filterMap_congr hother, hstats, hsum, hnr] at hrun
  refine ⟨s', ?_, hhead', ?_, fun a => ?_⟩
  · simp only [printStats, hsome, hrun₁, hdel, hfree, hhead₃, hrun, listDelInit_of_nil hhead',
      Option.bind_eq_bind, Option.bind_some]
    rfl
  · rw [hfreed, hfreed₃, hhead, List.reverse_cons, List.append_assoc, hfreed₁]
    rfl
  · rw [hrest, hstat₃]
    by_cases ha : a ∈ s.myHead
    · rw [if_pos ha]
      rw [hhead, List.mem_cons] at ha
      rcases ha with rfl | ha <;> simp [*]
    · rw [if_neg ha, hrest₁ a (by simpa using ha)]
      rw [hhead, List.mem_cons, not_or] at ha
      rw [if_neg ha.2, if_neg ha.1]

theorem printStats_spec (hs : s.Valid) (hne : s.myHead ≠ []) :
    ∃ s', printStats s
        = some (s', (increments s.stats).sum, Int32.ofNat (s.myHead.length - 1))
      ∧ s'.myHead = [] ∧ s'.freed = s.myHead.reverse ++ s.freed ∧ s'.Valid := by
  obtain ⟨s', hrun, hhead', hfreed, hstat⟩ :=
    printStats_run hs.nodup (fun a ha => (hs.live a).mpr ha) hne
  refine ⟨s', hrun, hhead', hfreed, by simp [hhead'], fun a => ?_⟩
  have hnone : s'.stat a = none := by
    rw [hstat]
    split_ifs with ha
    · rfl
    · exact hs.stat_eq_none ha
  rw [hhead', mem_live_iff, hnone]
  simp

/-! ### One iteration -/

theorem saveStats_run (hlive : ∀ b ∈ s.myHead, b ∈ s.live) (a : Addr)
    (kcpustatCpu : Fin nrStats → List (Cpustat nrStats)) :
    saveStats s (some a) kcpustatCpu
      = some ({ s.write a (sumCpus kcpustatCpu) with myHead := s.myHead ++ [a] }, 0) := by
  set stat := sumCpus kcpustatCpu
  have htouch : (s.write a stat).touch (a :: s.myHead.getLast?.toList) = some () := by
    apply touch_of_live
    intro b hb
    rw [mem_live_iff, write_stat]
    split_ifs with hba
    · exact ⟨stat, rfl⟩
    · have hmem := (List.mem_cons.mp hb).resolve_left hba
      exact mem_live_iff.mp (hlive b (List.mem_of_getLast? (Option.mem_toList.mp hmem)))
  have hadd : (s.write a stat).listAddTail a
      = some { s.write a stat with myHead := s.myHead ++ [a] } := by
    rw [State.listAddTail]
    exact congrArg (Option.bind · _) htouch
  rw [saveStats, Option.bind_eq_bind, hadd]
  rfl

theorem saveStats_spec (hs : s.Valid) {a : Addr} (hfresh : a ∉ s.live)
    (kcpustatCpu : Fin nrStats → List (Cpustat nrStats)) :
    ∃ s', saveStats s (some a) kcpustatCpu = some (s', 0) ∧ s'.Valid
      ∧ s'.myHead = s.myHead ++ [a] ∧ s'.stats = s.stats ++ [sumCpus kcpustatCpu]
      ∧ s'.freed = s.freed := by
  set stat := sumCpus kcpustatCpu
  have hnew : a ∉ s.myHead := fun ha => hfresh ((hs.live a).mpr ha)
  have hlive : ∀ b, b ∈ (s.write a stat).live ↔ b ∈ s.myHead ++ [a] := by
    intro b
    rw [mem_live_iff, write_stat, List.mem_append, List.mem_singleton, ← hs.live, mem_live_iff]
    by_cases hb : b = a <;> simp [hb]
  refine ⟨_, saveStats_run (fun b hb => (hs.live b).mpr hb) a kcpustatCpu, ⟨?_, hlive⟩, rfl, ?_,
    rfl⟩
  · dsimp only
    rw [← List.concat_eq_append]
    exact hs.nodup.concat hnew
  · have hold : s.myHead.filterMap (s.write a stat).stat = s.stats := by
      apply List.filterMap_congr
      intro b hb
      rw [write_stat, if_neg]
      rintro rfl
      exact hnew hb
    have ha : (s.write a stat).stat a = some stat := by rw [write_stat, if_pos rfl]
    calc (s.myHead ++ [a]).filterMap (s.write a stat).stat
      _ = s.stats ++ [a].filterMap (s.write a stat).stat := by rw [List.filterMap_append, hold]
      _ = s.stats ++ [stat] := by rw [List.filterMap_cons_some ha, List.filterMap_nil]

/-- `n` samples end with a call of `print_stats`. -/
def Params.Prints (p : Params) (n : Int32) : Prop := n.toUInt32 % p.period = 0

instance Params.decidablePrints (p : Params) (n : Int32) : Decidable (p.Prints n) :=
  inferInstanceAs (Decidable (_ = _))

/-- The samples of the coming reports, where `n` samples were taken and `pending` are in no report
yet. -/
def reported {α : Type*} (p : Params) (n : Int32) (pending : List α) : List α → List (List α)
  | [] => []
  | sample :: samples =>
      if p.Prints (n + 1) then (pending ++ [sample]) :: reported p (n + 1) [] samples
      else reported p (n + 1) (pending ++ [sample]) samples

def Iteration.sample (i : Iteration nrStats) : Cpustat nrStats := sumCpus i.kcpustatCpu

/-- `kzalloc` returns nothing that is in use. -/
def Iteration.Allowed (t : Option (Thread nrStats)) (i : Iteration nrStats) : Prop :=
  ∀ t' ∈ t, ∀ a ∈ i.kzalloc, a ∉ t'.state.live

instance Iteration.decidableAllowed (t : Option (Thread nrStats)) (i : Iteration nrStats) :
    Decidable (i.Allowed t) :=
  inferInstanceAs (Decidable (∀ t' ∈ t, ∀ a ∈ i.kzalloc, a ∉ t'.state.live))

theorem Params.defined {p : Params} (hperiod : 1 ≤ p.period) : ¬ (p.frequency = 0 ∨ p.period = 0) := by
  rintro (hfrequency | hzero)
  · rw [Params.period, hfrequency, UInt32.div_zero, UInt32.mul_zero] at hperiod
    exact absurd hperiod (by decide)
  · rw [hzero] at hperiod
    exact absurd hperiod (by decide)

theorem iterate_of_saved {p : Params} (hperiod : 1 ≤ p.period) {t : Thread nrStats}
    (hrunning : t.returned = none) {i : Iteration nrStats} {s : State nrStats}
    (hsave : saveStats t.state i.kzalloc i.kcpustatCpu = some (s, 0)) :
    t.iterate p i =
      if p.Prints (t.n + 1) then
        (printStats s).map fun r => { t with state := r.1, n := t.n + 1, sums := t.sums ++ [r.2.1] }
      else some { t with state := s, n := t.n + 1 } := by
  simp only [Thread.iterate, hrunning, hsave, p.defined hperiod, Option.map_eq_bind]
  rfl

theorem iterate_spec {p : Params} (hperiod : 1 ≤ p.period) {t : Thread nrStats}
    (hs : t.state.Valid) (hrunning : t.returned = none) {i : Iteration nrStats}
    (hallowed : i.Allowed (some t)) (hsuccess : i.kzalloc.isSome) :
    ∃ t', iterate p (some t) i = some t' ∧ t'.state.Valid ∧ t'.returned = none ∧ t'.n = t.n + 1
      ∧ if p.Prints (t.n + 1) then
          t'.sums = t.sums ++ [(increments (t.state.stats ++ [i.sample])).sum] ∧ t'.state.stats = []
        else t'.sums = t.sums ∧ t'.state.stats = t.state.stats ++ [i.sample] := by
  obtain ⟨a, ha⟩ := Option.isSome_iff_exists.mp hsuccess
  obtain ⟨s, hsave, hvalid, hhead, hstats, -⟩ :=
    saveStats_spec hs (hallowed t rfl a ha) i.kcpustatCpu
  rw [← ha] at hsave
  rw [iterate, Option.bind_some, iterate_of_saved hperiod hrunning hsave]
  split_ifs with hprints
  · obtain ⟨s', hprint, hempty, -, hvalid'⟩ := printStats_spec hvalid (by simp [hhead])
    rw [hprint, Option.map_some]
    refine ⟨_, rfl, hvalid', hrunning, rfl, ?_, ?_⟩
    · rw [hstats]
      rfl
    · rw [State.stats, hempty, List.filterMap_nil]
  · exact ⟨_, rfl, hvalid, hrunning, rfl, rfl, hstats⟩

/-! ### Runs -/

section Reported

variable {α : Type*} {p : Params}

theorem reported_ne_nil {n : Int32} {pending samples : List α} :
    ∀ group ∈ reported p n pending samples, group ≠ [] := by
  induction samples generalizing n pending with
  | nil => simp [reported]
  | cons sample samples ih =>
      rw [reported]
      split_ifs with hprints
      · intro group hgroup
        rcases List.mem_cons.mp hgroup with rfl | hgroup
        · simp
        · exact ih group hgroup
      · exact ih

/-- A run that ends with a report has every sample in one. -/
theorem flatten_reported {n : Int32} {pending samples : List α} (hne : samples ≠ [])
    (hend : p.Prints (n + Int32.ofNat samples.length)) :
    (reported p n pending samples).flatten = pending ++ samples := by
  induction samples generalizing n pending with
  | nil => contradiction
  | cons sample samples ih =>
      rw [count_cons] at hend
      cases samples with
      | nil =>
          have hprints : p.Prints (n + 1) := by simpa using hend
          simp [reported, hprints]
      | cons sample' samples =>
          have htail : ∀ pending, (reported p (n + 1) pending (sample' :: samples)).flatten
              = pending ++ sample' :: samples := fun pending => ih (by simp) hend
          rw [reported]
          split_ifs with hprints
          · rw [List.flatten_cons, htail, List.append_assoc, List.nil_append, List.singleton_append]
          · rw [htail, List.append_assoc, List.singleton_append]

end Reported

theorem final_iterate {p : Params} (hperiod : 1 ≤ p.period) {t : Thread nrStats}
    (hs : t.state.Valid) (hrunning : t.returned = none) {iterations : List (Iteration nrStats)}
    (hallowed : StepsMeet (iterate p) (fun t i => i.Allowed t) (some t) iterations)
    (hsuccess : ∀ i ∈ iterations, i.kzalloc.isSome) :
    ∃ t', final (iterate p) (some t) iterations = some t' ∧ t'.sums = t.sums
      ++ (reported p t.n t.state.stats (iterations.map Iteration.sample)).map
        fun group => (increments group).sum := by
  induction iterations generalizing t with
  | nil => exact ⟨t, rfl, by simp [reported]⟩
  | cons i iterations ih =>
      obtain ⟨t₁, hrun, hvalid, hrunning₁, hn, hsums⟩ :=
        iterate_spec hperiod hs hrunning hallowed.1 (hsuccess i List.mem_cons_self)
      obtain ⟨t', hfinal, hsums'⟩ := ih hvalid hrunning₁ (hrun ▸ hallowed.2)
        fun j hj => hsuccess j (List.mem_cons_of_mem i hj)
      refine ⟨t', ?_, ?_⟩
      · rw [final, List.foldl_cons, hrun]
        exact hfinal
      · rw [hsums', hn, List.map_cons, reported]
        split_ifs at hsums ⊢ with hprints
        · rw [hsums.1, hsums.2, List.map_cons, List.append_assoc, List.singleton_append]
        · rw [hsums.1, hsums.2]

theorem valid_empty : ({} : State nrStats).Valid := by
  refine ⟨List.nodup_nil, fun a => ?_⟩
  rw [mem_live_iff]
  simp

/-- The samples that each report of a run is about. -/
def reports (p : Params) (iterations : List (Iteration nrStats)) : List (List (Cpustat nrStats)) :=
  reported p 0 [] (iterations.map Iteration.sample)

/-- **What the reports add up to.** Each adds up the increments between its own samples; what was
counted between the last sample of a report and the first of the next is in none. -/
theorem sums_add_gaps {p : Params} (hperiod : 1 ≤ p.period)
    {iterations : List (Iteration nrStats)} {first last : Cpustat nrStats}
    (hallowed : StepsMeet (iterate p) (fun t i => i.Allowed t) (some {}) iterations)
    (hsuccess : ∀ i ∈ iterations, i.kzalloc.isSome)
    (hfirst : (iterations.map Iteration.sample).head? = some first)
    (hlast : (iterations.map Iteration.sample).getLast? = some last)
    (hend : p.Prints (Int32.ofNat iterations.length)) :
    ∃ t, final (iterate p) (some {}) iterations = some t
      ∧ (reports p iterations).flatten = iterations.map Iteration.sample
      ∧ t.sums = (reports p iterations).map (fun samples => (increments samples).sum)
      ∧ t.sums.sum + (gaps (reports p iterations)).sum = last - first := by
  obtain ⟨t, hfinal, hsums⟩ := final_iterate hperiod valid_empty rfl hallowed hsuccess
  have hne : iterations.map Iteration.sample ≠ [] := by
    intro hnil
    rw [hnil] at hfirst
    contradiction
  have hflatten : (reports p iterations).flatten = iterations.map Iteration.sample :=
    flatten_reported hne (by simpa using hend)
  have hsums' : t.sums = (reports p iterations).map fun samples => (increments samples).sum := hsums
  rw [← hflatten] at hfirst hlast
  refine ⟨t, hfinal, hflatten, hsums', ?_⟩
  rw [hsums']
  exact sum_groups reported_ne_nil hfirst hlast

def iteration (kzalloc : Addr) (count : UInt64) : Iteration 1 where
  kzalloc := some kzalloc
  kcpustatCpu := fun _ => [fun _ => count]

/-- Two reports of ten samples. -/
def squares : List (Iteration 1) :=
  (List.range 20).map fun k => iteration (16 * (k + 1)) (.ofNat (k * k))

theorem sums_add_gaps_squares :
    ∃ t, final (iterate (Params.loaded 250)) (some {}) squares = some t
      ∧ (reports (Params.loaded 250) squares).flatten = squares.map Iteration.sample
      ∧ t.sums
        = (reports (Params.loaded 250) squares).map (fun samples => (increments samples).sum)
      ∧ t.sums.sum + (gaps (reports (Params.loaded 250) squares)).sum
        = (fun _ => 361) - fun _ => 0 :=
  sums_add_gaps (by decide) (by decide) (by decide) rfl rfl (by decide)

/-- The counters grew by 19 between the reports, and that increment is in neither. -/
theorem sums_ne_squares :
    1 ≤ (Params.loaded 250).period ∧ (Params.loaded 250).Prints (Int32.ofNat squares.length)
      ∧ (∀ i ∈ squares, i.kzalloc.isSome)
      ∧ StepsMeet (iterate (Params.loaded 250)) (fun t i => i.Allowed t) (some {}) squares
      ∧ ∃ t, final (iterate (Params.loaded 250)) (some {}) squares = some t
        ∧ t.sums.sum ≠ (fun _ => 361) - fun _ => 0 := by
  refine ⟨by decide, by decide, by decide, by decide, _, rfl, fun heq => ?_⟩
  have hcount := congrFun heq 0
  exact absurd hcount (by decide)

end Pnl.Kcpustat
