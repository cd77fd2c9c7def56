import Pnl.Proof.TaskMonitor2Strays

/-!
# The life of the module

Between loading and unloading the module makes any calls one after another. What it allocates on the
way is exactly what its lists hold, so the deletion loops of `monitor_exit` free all of it. All of
this is exactly as long as no sample is released next to one that comes first on a list or is free
already, and nobody else writes to the head of the lists.
-/

namespace Pnl.TaskMonitor2

open Bytes Krefs Runs

/-! ### Loading -/

/-- The `n` bytes at `a` lie in the address space and overlap no allocated object. -/
def State.Vacant (s : State) (a n : Nat) : Prop :=
  0 < a ∧ a + n ≤ 2 ^ 64
    ∧ (∀ t : Nat, t ∈ s.samples.live → a + n ≤ t ∨ t + sizeofTaskSample ≤ a)
    ∧ ∀ m : Nat, m ∈ s.monitors.live → a + n ≤ m ∨ m + sizeofTaskMonitor ≤ a

instance (s : State) (a n : Nat) : Decidable (s.Vacant a n) :=
  inferInstanceAs (Decidable (_ ∧ _ ∧ _ ∧ _))

structure Unloaded (s : State) : Prop where
  tasks : s.tasks = []
  monitors : s.monitors.live = ∅ ∧ s.monitors.freed = [] ∧ s.monitors.faults = 0
  samples : s.samples.live = ∅ ∧ s.samples.freed = [] ∧ s.samples.faults = 0
  totals : s.totalCreated = 0 ∧ s.totalDestroyed = 0
  strays : s.wild = 0 ∧ s.freedWrites = 0

/-- A module that `monitor_init` has loaded, with as many monitors as it makes. -/
inductive Loaded : State → Prop
  | unloaded {s : State} (h : Unloaded s) : Loaded s
  | tmAllocator {s s' : State} (h : Loaded s) {kmalloc : Addr} {pid : Option Int32} {ret : Int}
      (hvacant : s.Vacant kmalloc sizeofTaskMonitor)
      (hrun : tmAllocator s kmalloc pid = (s', some ret)) : Loaded s'

theorem State.Vacant.not_mem_monitors {s : State} {a : Nat} (h : s.Vacant a sizeofTaskMonitor) :
    a ∉ s.monitors.live := by
  intro ha
  obtain ⟨-, -, -, hmonitors⟩ := h
  have hself := hmonitors a ha
  have hsize : sizeofTaskMonitor = 80 := rfl
  omega

theorem State.Vacant.not_mem_samples {s : State} {a : Nat} (h : s.Vacant a sizeofTaskSample) :
    a ∉ s.samples.live := by
  intro ha
  obtain ⟨-, -, hsamples, -⟩ := h
  have hself := hsamples a ha
  have hsize : sizeofTaskSample = 40 := rfl
  omega

def State.monitored (s : State) (m : Addr) (pid : Int32) : State :=
  { s with
    tasks := s.tasks ++ [m]
    monitors := { s.monitors with
      live := insert m s.monitors.live
      refs := Function.update s.monitors.refs m 1 }
    pid := Function.update s.pid m pid
    head := Function.update s.head m []
    nbSamples := Function.update s.nbSamples m 0 }

theorem Allocated.tmAllocator_eq {s : State} (h : Allocated s) {m : Addr} (hnull : m ≠ null)
    (pid : Int32) : tmAllocator s m (some pid) = (s.monitored m pid, some 0) := by
  have hinit : (s.monitors.alloc m).init m = { s.monitors with
      live := insert m s.monitors.live
      refs := Function.update s.monitors.refs m 1 } := by
    rw [Pool.alloc, init_of_mem (Finset.mem_insert_self _ _)]
  rw [tmAllocator]
  dsimp only
  rw [if_neg hnull, hinit, Allocated.listAddTailMonitor_eq _ (Finset.mem_insert_self _ _)]
  · rfl
  · constructor
    · exact fun m' hm' => Finset.mem_insert_of_mem (h.monitors m' hm')
    · intro m' hm' t ht
      dsimp only at hm' ht
      by_cases hmm : m' = m
      · rw [hmm, Function.update_self] at ht
        cases ht
      · rw [Function.update_of_ne hmm] at ht
        exact h.samples m' hm' t ht

/-- References, lists and totals are in order, and nothing went astray. -/
structure InOrder (s : State) : Prop extends Accounted s where
  sound : s.Sound

structure Fresh (s : State) : Prop where
  accounted : Accounted s
  strays : s.wild = 0 ∧ s.freedWrites = 0
  head : ∀ m ∈ s.tasks, s.head m = []
  nbSamples : ∀ m ∈ s.tasks, s.nbSamples m = 0
  bound : ∀ m ∈ s.tasks, m + sizeofTaskMonitor ≤ 2 ^ 64
  samples_freed : s.samples.freed = []
  monitors_freed : s.monitors.freed = []

theorem Unloaded.fresh {s : State} (h : Unloaded s) : Fresh s := by
  obtain ⟨htasks, ⟨hmonitors, hmfreed, hmfaults⟩, ⟨hsamples, hsfreed, hsfaults⟩,
    ⟨hcreated, hdestroyed⟩, hstrays⟩ := h
  refine ⟨?_, hstrays, ?_, ?_, ?_, hsfreed, hmfreed⟩
  · exact {
      monitors := by simp [htasks]
      samples := by simp [htasks]
      tasks_nodup := by simp [htasks]
      head_nodup := by simp [htasks]
      one_list := by simp [htasks]
      monitors_listed := by simp [hmonitors]
      samples_listed := by simp [hsamples]
      mref := by simp [htasks]
      tref := by simp [hsamples]
      total := by
        rw [hcreated, hdestroyed, hsamples]
        rfl
      monitor_faults := hmfaults
      sample_faults := hsfaults
      linked := by simp [State.Linked, htasks] }
  all_goals simp [htasks]

theorem Fresh.intact_iff {s : State} (h : Fresh s) : s.Intact ↔ s.headTaken = false :=
  ⟨fun hintact => hintact.headTaken, fun hhead => ⟨h.strays.1, hhead⟩⟩

theorem Fresh.sound_iff {s : State} (h : Fresh s) : s.Sound ↔ s.headTaken = false :=
  ⟨fun hsound => hsound.headTaken, fun hhead => ⟨h.intact_iff.mpr hhead, h.strays.2⟩⟩

theorem mem_monitored {s : State} {m m' : Addr} {pid : Int32} :
    m' ∈ (s.monitored m pid).tasks ↔ m' ∈ s.tasks ∨ m' = m := by
  rw [State.monitored, List.mem_append, List.mem_singleton]

theorem forall_monitored {s : State} {m : Addr} {pid : Int32} {P : Addr → Prop}
    (hold : ∀ m' ∈ s.tasks, m' ≠ m → P m') (hself : P m) :
    ∀ m' ∈ (s.monitored m pid).tasks, P m' := by
  intro m' hm'
  by_cases hne : m' = m
  · rwa [hne]
  · exact hold m' ((mem_monitored.mp hm').resolve_right hne) hne

theorem Fresh.monitored {s : State} (h : Fresh s) {m : Nat}
    (hvacant : s.Vacant m sizeofTaskMonitor) (pid : Int32) : Fresh (s.monitored m pid) := by
  have hnew : m ∉ s.tasks := fun hm => hvacant.not_mem_monitors (h.accounted.monitors m hm)
  have hhead : ∀ m' ∈ (s.monitored m pid).tasks, (s.monitored m pid).head m' = [] :=
    forall_monitored (fun m' hm' hne => (Function.update_of_ne hne _ _).trans (h.head m' hm'))
      (Function.update_self _ _ _)
  have hempty : s.samples.live = ∅ := by
    refine Finset.eq_empty_of_forall_notMem fun t ht => ?_
    obtain ⟨m', hm', ht⟩ := h.accounted.samples_listed t ht
    rw [h.head m' hm'] at ht
    cases ht
  refine ⟨?_, h.strays, hhead, ?_, ?_, h.samples_freed, h.monitors_freed⟩
  · exact {
      monitors := forall_monitored
        (fun m' hm' _ => Finset.mem_insert_of_mem (h.accounted.monitors m' hm'))
        (Finset.mem_insert_self _ _)
      samples := fun m' hm' t ht => by
        rw [hhead m' hm'] at ht
        cases ht
      tasks_nodup := by
        rw [State.monitored, List.nodup_append_comm, List.singleton_append, List.nodup_cons]
        exact ⟨hnew, h.accounted.tasks_nodup⟩
      head_nodup := fun m' hm' => by simp [hhead m' hm']
      one_list := fun m' hm' _ _ t ht => by
        rw [hhead m' hm'] at ht
        cases ht
      monitors_listed := by
        intro m' hm'
        rcases Finset.mem_insert.mp hm' with rfl | hm'
        · exact mem_monitored.mpr (Or.inr rfl)
        · exact mem_monitored.mpr (Or.inl (h.accounted.monitors_listed m' hm'))
      samples_listed := fun t ht => by
        rw [State.monitored, hempty] at ht
        cases ht
      mref := forall_monitored
        (fun m' hm' hne => (Function.update_of_ne hne _ _).trans (h.accounted.mref m' hm'))
        (Function.update_self _ _ _)
      tref := h.accounted.tref
      total := h.accounted.total
      monitor_faults := h.accounted.monitor_faults
      sample_faults := h.accounted.sample_faults
      linked := fun m' hm' t ht => by
        rw [hhead m' hm'] at ht
        cases ht }
  · exact forall_monitored
      (fun m' hm' hne => (Function.update_of_ne hne _ _).trans (h.nbSamples m' hm'))
      (Function.update_self _ _ _)
  · exact forall_monitored (fun m' hm' _ => h.bound m' hm') hvacant.2.1

theorem Loaded.fresh {s : State} (h : Loaded s) : Fresh s := by
  induction h with
  | unloaded h => exact h.fresh
  | @tmAllocator s s' h kmalloc pid ret hvacant hrun ih =>
      cases pid with
      | none =>
          obtain ⟨rfl, -⟩ := Prod.mk.inj hrun
          exact ih
      | some pid =>
          have hnull : kmalloc ≠ null := (Nat.pos_iff_ne_zero.mp hvacant.1)
          rw [ih.accounted.tmAllocator_eq hnull] at hrun
          obtain ⟨rfl, -⟩ := Prod.mk.inj hrun
          exact ih.monitored hvacant pid

/-! ### Unloading -/

theorem Counted.exitMonitors_cons {s : State} (h : Counted (fun _ => 1) (fun _ => 1) s) {m : Addr}
    (hm : m ∈ s.tasks) (ms : List Addr) :
    exitMonitors s (m :: ms)
      = exitMonitors ((s.droppedAll (s.head m)).droppedMonitor m) ms := by
  have hexit : exitSamples s (s.head m) = s.droppedAll (s.head m) := by
    rw [exitSamples_eq_scanSamples s _ 0,
      h.scanSamples_eq hm (List.Subset.refl _) (h.head_nodup m hm),
      unrefAll_eq_droppedAll (h.head_nodup m hm)]
    exact fun t ht => h.tref t (h.samples m hm t ht)
  have hdropped := h.toAllocated.droppedAll (s.head m)
  have hm' : m ∈ (s.droppedAll (s.head m)).tasks := by rwa [droppedAll_tasks]
  have href : (s.droppedAll (s.head m)).monitors.refs m = 1 := by
    rw [droppedAll_monitors]
    exact h.mref m hm
  rw [exitMonitors, h.touchMonitor_eq hm, hexit, hdropped.touchMonitor_eq hm',
    hdropped.krefPutMonitor_last hm' href]

/-- **The deletion loops** release the samples in the order of the monitors. -/
theorem Counted.exitMonitors_eq {s : State} (h : Counted (fun _ => 1) (fun _ => 1) s)
    {ms : List Addr} (hms : ms ⊆ s.tasks) (hnodup : ms.Nodup) :
    exitMonitors s ms = (s.droppedAll (ms.flatMap s.head)).droppedMonitors ms := by
  induction ms generalizing s with
  | nil => rfl
  | cons m ms ih =>
      obtain ⟨hnotin, hnodup⟩ := List.nodup_cons.mp hnodup
      obtain ⟨hm, hms⟩ := List.cons_subset.mp hms
      have hempty : (s.droppedAll (s.head m)).head m = [] := by
        rw [droppedAll_head, List.filter_eq_nil_iff]
        intro t ht
        simp [ht]
      set next := (s.droppedAll (s.head m)).droppedMonitor m with hnext
      have hcounted : Counted (fun _ => 1) (fun _ => 1) next :=
        (h.droppedAll (h.samples m hm) (h.head_nodup m hm)).droppedMonitor hempty
      have htasks : ms ⊆ next.tasks := by
        intro m' hm'
        rw [hnext, State.droppedMonitor, droppedAll_tasks]
        exact List.mem_filter.mpr ⟨hms hm', decide_eq_true fun hmm => hnotin (hmm ▸ hm')⟩
      have hhead : ms.flatMap next.head = ms.flatMap s.head :=
        List.flatMap_congr (h.flatMap_droppedAll hm hms hnotin)
      rw [h.exitMonitors_cons hm, ih hcounted htasks hnodup, hhead, hnext,
        droppedAll_droppedMonitor hempty, List.flatMap_cons, droppedAll_append, droppedMonitors_cons]

theorem Counted.exitMonitors_spec {s : State} (h : Counted (fun _ => 1) (fun _ => 1) s)
    {ms : List Addr} (hms : s.tasks = ms.reverse) :
    Counted (fun _ => 1) (fun _ => 1) (exitMonitors s ms) ∧ (exitMonitors s ms).tasks = []
      ∧ (exitMonitors s ms).monitors.freed = ms.reverse ++ s.monitors.freed
      ∧ (exitMonitors s ms).samples.freed = (ms.flatMap s.head).reverse ++ s.samples.freed := by
  have hmem : ∀ m, m ∈ ms ↔ m ∈ s.tasks := by simp [hms]
  have hnodup : ms.Nodup := List.nodup_reverse.mp (hms ▸ h.tasks_nodup)
  have hsub : ms ⊆ s.tasks := fun m hm => (hmem m).mp hm
  have hsamples : ∀ t ∈ ms.flatMap s.head, t ∈ s.samples.live := by
    intro t ht
    obtain ⟨m, hm, ht⟩ := List.mem_flatMap.mp ht
    exact h.samples m (hsub hm) t ht
  have hempty : ∀ m ∈ ms, (s.droppedAll (ms.flatMap s.head)).head m = [] := by
    intro m hm
    rw [droppedAll_head, List.filter_eq_nil_iff]
    intro t ht
    simp only [decide_not, Bool.not_eq_true', decide_eq_false_iff_not, not_not]
    exact List.mem_flatMap.mpr ⟨m, hm, ht⟩
  rw [h.exitMonitors_eq hsub hnodup]
  refine ⟨(h.droppedAll hsamples (h.nodup_flatMap hsub hnodup)).droppedMonitors hempty, ?_, ?_, ?_⟩
  · rw [droppedMonitors_tasks, droppedAll_tasks, List.filter_eq_nil_iff]
    intro m hm
    simp [hmem, hm]
  · rw [droppedMonitors_monitors_freed, droppedAll_monitors]
  · rw [droppedMonitors_samples, droppedAll_freed]

/-- From `s` to `s'` every allocated object was freed, each once. -/
structure AllFreed (s s' : State) : Prop where
  samples : ∃ ts, s'.samples.freed = ts ++ s.samples.freed ∧ ts.Nodup
    ∧ ∀ t, t ∈ ts ↔ t ∈ s.samples.live
  monitors : ∃ ms, s'.monitors.freed = ms ++ s.monitors.freed ∧ ms.Nodup
    ∧ ∀ m, m ∈ ms ↔ m ∈ s.monitors.live
  samples_live : s'.samples.live = ∅
  monitors_live : s'.monitors.live = ∅

theorem Counted.allFreed {s : State} (h : Counted (fun _ => 1) (fun _ => 1) s) :
    AllFreed s (monitorExit s) := by
  obtain ⟨hacc, hnone, hmonitors, hsamples⟩ :=
    h.exitMonitors_spec (List.reverse_reverse s.tasks).symm
  constructor
  · refine ⟨_, hsamples, ?_, fun t => ?_⟩
    · rw [List.nodup_reverse]
      exact h.nodup_flatMap (fun m hm => List.mem_reverse.mp hm)
        (List.nodup_reverse.mpr h.tasks_nodup)
    · rw [List.mem_reverse, ← h.mem_listed_iff, mem_listed, List.mem_flatMap]
      simp only [List.mem_reverse]
  · refine ⟨_, hmonitors, ?_, fun m => ?_⟩
    · rw [List.reverse_reverse]
      exact h.tasks_nodup
    · rw [List.reverse_reverse]
      exact ⟨h.monitors m, h.monitors_listed m⟩
  · refine Finset.eq_empty_of_forall_notMem fun t ht => ?_
    obtain ⟨m, hm, _⟩ := hacc.samples_listed t ht
    rw [hnone] at hm
    cases hm
  · refine Finset.eq_empty_of_forall_notMem fun m hm => ?_
    have hm := hacc.monitors_listed m hm
    rw [hnone] at hm
    cases hm

/-! ### The whole life -/

/-- The deletion loops take the module from `s` to `s'`, with nothing left and nothing astray. -/
structure CleanExit (s s' : State) : Prop extends AllFreed s s' where
  sample_faults : s'.samples.faults = 0
  monitor_faults : s'.monitors.faults = 0
  totals : s'.totalCreated = s'.totalDestroyed
  sound : s'.Sound

/-- What a call may count on, and the block of `all_tasks` is nobody else's. -/
def Deed.Allowed (s : State) : Deed → Prop
  | .call c => c.Allowed s
  | .otherStore offset => sizeofAllTasks ≤ offset

/-- A scan finds the lists as `C` wants them, and nobody writes to their head. -/
def Deed.Spares (C : State → List Addr → Prop) (s : State) : Deed → Prop
  | .call c => c.Spares C s
  | .otherStore offset => ¬ HitsHead offset

instance (s : State) : (deed : Deed) → Decidable (deed.Allowed s)
  | .call c => inferInstanceAs (Decidable (c.Allowed s))
  | .otherStore offset => inferInstanceAs (Decidable (sizeofAllTasks ≤ offset))

instance (C : State → List Addr → Prop) [∀ s ms, Decidable (C s ms)] (s : State) :
    (deed : Deed) → Decidable (deed.Spares C s)
  | .call c => inferInstanceAs (Decidable (c.Spares C s))
  | .otherStore offset => inferInstanceAs (Decidable (¬ HitsHead offset))

theorem Accounted.otherStore {s : State} (h : Accounted s) (offset : Nat) :
    Accounted (s.otherStore offset) :=
  { h with
    monitors := h.monitors
    samples := h.samples
    linked := h.linked }

theorem Accounted.acted {s : State} (h : Accounted s) {deed : Deed} (hallowed : deed.Allowed s) :
    Accounted (act s deed) := by
  cases deed with
  | call call => exact accounted_step s call h hallowed
  | otherStore offset => exact h.otherStore offset

section Endures

variable {P : State → Prop} {C : State → List Addr → Prop} (hP : Endures P C)

include hP

section Act

variable {s : State} (h : Accounted s) {deed : Deed} (hallowed : deed.Allowed s)

include h hallowed

/-- **One deed** keeps `P` exactly if it spares the others. -/
theorem Endures.act_iff (hs : P s) : P (act s deed) ↔ deed.Spares C s := by
  cases deed with
  | call call => exact hP.step_iff h hallowed hs
  | otherStore offset => exact (hP.otherStore s offset).trans (and_iff_right hs)

theorem Endures.of_act (hact : P (act s deed)) : P s := by
  cases deed with
  | call call => exact hP.of_step h hallowed hact
  | otherStore offset => exact ((hP.otherStore s offset).mp hact).1

end Act

theorem Endures.droppedMonitors_iff (s : State) (ms : List Addr) :
    P (s.droppedMonitors ms) ↔ P s := by
  induction ms generalizing s with
  | nil => rfl
  | cons m ms ih => rw [droppedMonitors_cons, ih, hP.monitor]

theorem Endures.monitorExit_iff {s : State} (h : Accounted s) :
    P (monitorExit s) ↔ P (s.droppedAll (s.tasks.reverse.flatMap s.head)) := by
  have hnodup := List.nodup_reverse.mpr h.tasks_nodup
  rw [monitorExit, h.exitMonitors_eq (fun m => List.mem_reverse.mp) hnodup, hP.droppedMonitors_iff]

/-- **The deletion loops** keep `P` exactly under `C`. -/
theorem Endures.exit_iff {s : State} (h : Accounted s) (hs : P s) :
    P (monitorExit s) ↔ C s s.tasks.reverse := by
  have hnodup := List.nodup_reverse.mpr h.tasks_nodup
  rw [hP.monitorExit_iff h]
  exact hP.released h.toCounted h.linked (fun m => List.mem_reverse) hnodup hs

/-- **`P` holds to the end** exactly if it did at the start, no deed ends it, and neither does
unloading. -/
theorem Endures.final_iff {s : State} (h : Accounted s) {deeds : List Deed}
    (hallowed : StepsMeet act Deed.Allowed s deeds) :
    P (monitorExit (final act s deeds))
      ↔ P s ∧ StepsMeet act (Deed.Spares C) s deeds
        ∧ C (final act s deeds) (final act s deeds).tasks.reverse :=
  final_iff_cond (Q := fun s => P (monitorExit s)) (E := fun s => C s s.tasks.reverse)
    (fun _ _ h hdeed => h.acted hdeed) (fun _ _ h hdeed hs => hP.act_iff h hdeed hs)
    (fun _ _ h hdeed hact => hP.of_act h hdeed hact) (fun _ h hs => hP.exit_iff h hs)
    (fun _ h hexit => hP.back _ _ ((hP.monitorExit_iff h).mp hexit)) h hallowed

end Endures

/-- **One deed** leaves the module in order exactly if it spares the others. -/
theorem InOrder.act_iff {s : State} (h : InOrder s) {deed : Deed} (hallowed : deed.Allowed s) :
    InOrder (act s deed) ↔ deed.Spares State.Clear s := by
  have hsound := sound_endures.act_iff h.toAccounted hallowed h.sound
  constructor
  · exact fun hright => hsound.mp hright.sound
  · exact fun hspares => ⟨h.toAccounted.acted hallowed, hsound.mpr hspares⟩

/-- **Unloading** is clean exactly if the samples can be released without harm to others. -/
theorem InOrder.cleanExit_iff {s : State} (h : InOrder s) :
    CleanExit s (monitorExit s) ↔ s.Clear s.tasks.reverse := by
  have hsound := sound_endures.exit_iff h.toAccounted h.sound
  constructor
  · exact fun hclean => hsound.mp hclean.sound
  · intro hclear
    have hfreed := h.allFreed
    have hexit := (h.exitMonitors_spec (List.reverse_reverse s.tasks).symm).1
    refine ⟨hfreed, hexit.sample_faults, hexit.monitor_faults, ?_, hsound.mpr hclear⟩
    have hnone : (exitMonitors s s.tasks.reverse).samples.live = ∅ := hfreed.samples_live
    have htotal := hexit.total
    rw [hnone] at htotal
    exact (Int32.sub_eq_iff_eq_add.mp htotal).trans (Int32.zero_add _)

theorem Accounted.states_iff {s : State} (h : Accounted s) {deeds : List Deed}
    (hallowed : StepsMeet act Deed.Allowed s deeds) :
    (∀ s' ∈ states act s deeds, InOrder s')
      ↔ s.Sound ∧ StepsMeet act (Deed.Spares State.Clear) s deeds := by
  have hruns : InOrder s → ((∀ s' ∈ states act s deeds, InOrder s')
      ↔ StepsMeet act (Deed.Spares State.Clear) s deeds) := fun hstart =>
    forall_states_iff_cond (fun _ _ h hdeed => h.act_iff hdeed)
      (fun _ _ h hdeed hspares => (h.act_iff hdeed).mpr hspares) (fun _ h => h) hstart hallowed
  constructor
  · intro hstates
    have hstart : InOrder s := (forall_states_iff.mp hstates).1
    exact ⟨hstart.sound, (hruns hstart).mp hstates⟩
  · exact fun hright => (hruns ⟨h, hright.1⟩).mpr hright.2

/-- **References and lists over the life of the module.** -/
theorem lifetime_iff {s : State} (hload : Loaded s) {deeds : List Deed}
    (hallowed : StepsMeet act Deed.Allowed s deeds) :
    ((∀ s' ∈ states act s deeds, InOrder s')
        ∧ CleanExit (final act s deeds) (monitorExit (final act s deeds)))
      ↔ s.headTaken = false ∧ StepsMeet act (Deed.Spares State.Clear) s deeds
        ∧ (final act s deeds).Clear (final act s deeds).tasks.reverse := by
  rw [← and_assoc, ← hload.fresh.sound_iff, ← hload.fresh.accounted.states_iff hallowed]
  exact and_congr_right fun hstates => (hstates _ final_mem_states).cleanExit_iff

def State.unloaded : State where
  tasks := []
  monitors := { live := ∅, refs := fun _ => 0 }
  head := fun _ => []
  pid := fun _ => 0
  nbSamples := fun _ => 0
  samples := { live := ∅, refs := fun _ => 0 }
  times := fun _ => { utime := 0, stime := 0 }

theorem unloaded_unloaded : Unloaded State.unloaded :=
  ⟨rfl, ⟨rfl, rfl, rfl⟩, ⟨rfl, rfl, rfl⟩, ⟨rfl, rfl⟩, rfl, rfl⟩

def State.loaded : State := (tmAllocator State.unloaded 0x1000 (some 1)).1

theorem loaded_loaded : Loaded State.loaded := by
  have hrun : tmAllocator State.unloaded 0x1000 (some 1) = (State.loaded, some 0) := rfl
  exact Loaded.tmAllocator (Loaded.unloaded unloaded_unloaded) (by decide) hrun

def someDeeds : List Deed :=
  [.call (.saveSample 0x1000 (some (0x2000, { utime := 0, stime := 0 })) none),
    .call (.saveSample 0x1000 none none), .call (.myShrinkScan 0), .otherStore 8,
    .call .debugfsTaskMonitorShow, .call .myShrinkCount, .call (.myShrinkScan 0x80), .otherStore 64,
    .call (.saveSample 0x1000 (some (0x2050, { utime := 7, stime := 8 })) none),
    .call (.saveSample 0x1000 (some (0x2000, { utime := 9, stime := 9 })) none)]

theorem lifetime_someDeeds :
    (∀ s' ∈ states act State.loaded someDeeds, InOrder s')
      ∧ CleanExit (final act State.loaded someDeeds)
          (monitorExit (final act State.loaded someDeeds)) :=
  (lifetime_iff loaded_loaded (by decide)).mpr ⟨rfl, by decide, by decide⟩

/-- Two samples, the second in the object behind the first. -/
def adjacentDeeds : List Deed :=
  [.call (.saveSample 0x1000 (some (0x2000, { utime := 0, stime := 0 })) none),
    .call (.saveSample 0x1000 (some (0x2028, { utime := 1, stime := 2 })) none)]

/-- A scan follows the link that the release of the first sample put off, and so does unloading. -/
theorem not_inOrder_adjacentDeeds :
    Loaded State.loaded
      ∧ StepsMeet act Deed.Allowed State.loaded (adjacentDeeds ++ [.call (.myShrinkScan 0x80)])
      ∧ ¬ (∀ s' ∈ states act State.loaded (adjacentDeeds ++ [.call (.myShrinkScan 0x80)]), InOrder s')
      ∧ ¬ CleanExit (final act State.loaded adjacentDeeds)
          (monitorExit (final act State.loaded adjacentDeeds)) := by
  refine ⟨loaded_loaded, by decide, fun h => ?_, fun h => ?_⟩
  · have hwild := (h _ final_mem_states).sound.wild
    exact absurd hwild (by decide)
  · have hwild := h.sound.wild
    exact absurd hwild (by decide)

end Pnl.TaskMonitor2
