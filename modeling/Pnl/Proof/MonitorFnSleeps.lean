import Pnl.Proof.IoctlThread
import Pnl.Proof.TaskMonitor2Lifetime

/-!
# How long `monitor_fn` sleeps

Both monitors divide by `frequency`, which can be written at any time. The lower bound of `TP_06` is
a jiffy, so only a zero keeps that thread from sleeping. In `TP_07` the quotient is divided by 20
once more and its lower bound `1U/20` is zero: the timeout is down to nothing as soon as `HZ` is less
than 20 times `frequency`.
-/

namespace Pnl.TaskMonitor2

open Krefs Runs Sleepers

/-- The lower bound has no effect. -/
theorem sleeps_monitorTimeout_iff {hz frequency : UInt32} :
    Sleeps (monitorTimeout hz frequency) ↔ frequency ≠ 0 ∧ 20 * frequency.toNat ≤ hz.toNat := by
  calc Sleeps (monitorTimeout hz frequency)
      ↔ frequency ≠ 0 ∧ 1 ≤ umax (hz / frequency / 20) (1 / 20) := sleeps_map_div_iff
    _ ↔ frequency ≠ 0 ∧ 1 ≤ hz / frequency / 20 := by
        rw [one_le_umax_iff, or_iff_left (by decide)]
    _ ↔ frequency ≠ 0 ∧ 20 * frequency.toNat ≤ hz.toNat :=
        and_congr_right fun hne => one_le_div_div_iff hne (by decide)

/-! ### What the thread of `TP_07` does when it is awake -/

theorem saved_withMonitors (s : State) (monitors : Pool Addr) (tm ts : Addr) (times : Times) :
    (s.withMonitors monitors).saved tm ts times = (s.saved tm ts times).withMonitors monitors := rfl

theorem Referenced.saved {s : State} (h : Referenced s) (tm ts : Addr) (times : Times) :
    Referenced (s.saved tm ts times) where
  monitors := h.monitors
  samples := by
    intro m hm t ht
    obtain ht | ⟨-, rfl⟩ := mem_saved_head.mp ht
    · exact Finset.mem_insert_of_mem (h.samples m hm t ht)
    · exact Finset.mem_insert_self _ _
  mref := h.mref
  tref := by
    intro m hm t ht
    by_cases hts : t = ts
    · rw [hts]
      exact (Function.update_self ts 1 s.samples.refs).trans_ne (by decide)
    · obtain ht | ⟨-, heq⟩ := mem_saved_head.mp ht
      · exact (Function.update_of_ne hts _ _).trans_ne (h.tref m hm t ht)
      · exact absurd heq hts
  linked := h.linked.saved tm ts times

/-- The reference on the monitor does not show in what `save_sample` leaves. -/
theorem Referenced.sampleMonitors_cons {s : State} (h : Referenced s) {m : Addr} (hm : m ∈ s.tasks)
    (answers : Answers) (ms : List Addr) (tester : Addr) :
    sampleMonitors answers s (m :: ms) tester
      = sampleMonitors answers (saveSample s m (answers m).1 (answers m).2).1 ms
          (saveSample s m (answers m).1 (answers m).2).2 := by
  have hlive := h.monitors m hm
  have href := h.mref m hm
  rw [sampleMonitors, krefGetMonitor_eq hlive href]
  dsimp only
  rw [if_pos rfl]
  cases halloc : (answers m).1 with
  | none =>
      have hput := krefPutMonitor_withMonitors hlive href
      dsimp only [saveSample]
      rw [hput, h.touchMonitor_eq hm]
  | some object =>
      obtain ⟨ts, contents⟩ := object
      have hsaved := h.saved m ts (getSample (answers m).2 contents).1
      have hput := krefPutMonitor_withMonitors (hsaved.monitors m hm) (hsaved.mref m hm)
      rw [(h.toAllocated.withMonitors m).saveSample_eq hm, h.toAllocated.saveSample_eq hm,
        saved_withMonitors]
      dsimp only
      have hmonitors : (s.saved m ts (getSample (answers m).2 contents).1).monitors = s.monitors := rfl
      rw [hmonitors] at hput
      rw [hput, hsaved.touchMonitor_eq hm]

theorem Referenced.saveSample {s : State} (h : Referenced s) {m : Addr} (hm : m ∈ s.tasks)
    (alloc : Option (Addr × Times)) (task : Option Task) :
    Referenced (saveSample s m alloc task).1 ∧ (saveSample s m alloc task).1.tasks = s.tasks := by
  cases alloc with
  | none => exact ⟨h, rfl⟩
  | some object =>
      obtain ⟨ts, contents⟩ := object
      rw [h.toAllocated.saveSample_eq hm]
      exact ⟨h.saved m ts _, rfl⟩

/-- **A turn's work is a sequence of complete calls of `save_sample`.** -/
theorem Referenced.sampleMonitors_eq {s : State} (h : Referenced s) {ms : List Addr}
    (hms : ms ⊆ s.tasks) (answers : Answers) (tester : Addr) :
    (sampleMonitors answers s ms tester).1
      = final step s (ms.map fun m => .saveSample m (answers m).1 (answers m).2) := by
  induction ms generalizing s tester with
  | nil => rfl
  | cons m ms ih =>
      have hm : m ∈ s.tasks := hms List.mem_cons_self
      obtain ⟨hreferenced, htasks⟩ := h.saveSample hm (answers m).1 (answers m).2
      rw [h.sampleMonitors_cons hm, List.map_cons, ih hreferenced]
      · rfl
      · rw [htasks]
        exact fun x hx => hms (List.mem_cons_of_mem m hx)

theorem Referenced.sampleMonitors {s : State} (h : Referenced s) {ms : List Addr}
    (hms : ms ⊆ s.tasks) (answers : Answers) (tester : Addr) :
    Referenced (sampleMonitors answers s ms tester).1
      ∧ (TaskMonitor2.sampleMonitors answers s ms tester).1.tasks = s.tasks := by
  induction ms generalizing s tester with
  | nil => exact ⟨h, rfl⟩
  | cons m ms ih =>
      have hm : m ∈ s.tasks := hms List.mem_cons_self
      obtain ⟨hreferenced, htasks⟩ := h.saveSample hm (answers m).1 (answers m).2
      rw [h.sampleMonitors_cons hm, ← htasks]
      apply ih hreferenced
      rw [htasks]
      exact fun x hx => hms (List.mem_cons_of_mem m hx)

/-- The module after some calls of `save_sample` for the monitors that `s` lists. -/
structure SampledFrom (s t : State) : Prop where
  referenced : Referenced t
  tasks : t.tasks = s.tasks
  calls : ∃ calls, t = final step s calls ∧
    ∀ call ∈ calls, ∃ tm ∈ s.tasks, ∃ alloc task, call = .saveSample tm alloc task

theorem SampledFrom.sampleMonitors {s t : State} (h : SampledFrom s t) (answers : Answers)
    (tester : Addr) :
    SampledFrom s (TaskMonitor2.sampleMonitors answers t t.tasks tester).1 := by
  obtain ⟨hreferenced, htasks⟩ :=
    h.referenced.sampleMonitors (List.Subset.refl _) answers tester
  obtain ⟨calls, hcalls, hsampling⟩ := h.calls
  refine ⟨hreferenced, htasks.trans h.tasks,
    calls ++ t.tasks.map fun m => .saveSample m (answers m).1 (answers m).2, ?_, ?_⟩
  · rw [final_append, ← hcalls, h.referenced.sampleMonitors_eq (List.Subset.refl _)]
  · rw [List.forall_mem_append, List.forall_mem_map]
    refine ⟨hsampling, fun m hm => ⟨m, ?_, _, _, rfl⟩⟩
    rwa [← h.tasks]

/-- **The thread calls `save_sample` and does nothing else**, however often it gets a turn. -/
theorem Referenced.monitorFn {s : State} (h : Referenced s) (hz : UInt32) (tester : Addr)
    (turns : List (Turn UInt32 Answers)) :
    ∀ u ∈ states (monitorFn hz) { state := (s, tester) } turns, SampledFrom s u.state.1 := by
  have hstart : SampledFrom s s := ⟨h, rfl, [], rfl, fun _ hmem => absurd hmem List.not_mem_nil⟩
  have hwork (t : State × Addr) (answers : Answers) (ht : SampledFrom s t.1) :
      SampledFrom s (TaskMonitor2.sampleMonitors answers t.1 t.1.tasks t.2).1 :=
    ht.sampleMonitors answers t.2
  exact state_of_work (fun t : State × Addr => SampledFrom s t.1) hwork hstart

end Pnl.TaskMonitor2

namespace Pnl.TaskMonitorIoctl

open Sleepers

theorem sleeps_monitorTimeout_iff {hz frequency : UInt32} :
    Sleeps (monitorTimeout hz frequency) ↔ frequency ≠ 0 := by
  calc Sleeps (monitorTimeout hz frequency)
      ↔ frequency ≠ 0 ∧ 1 ≤ umax (hz / frequency) 1 := sleeps_map_div_iff
    _ ↔ frequency ≠ 0 := and_iff_left (one_le_umax_iff.2 (Or.inr (UInt32.le_refl 1)))

end Pnl.TaskMonitorIoctl

namespace Pnl.MonitorFn

open Runs Sleepers

variable (hz : UInt32)

/-- **When the sampling threads sleep in all of their turns.** -/
theorem rested_monitorFn_iff (s : TaskMonitor2.State × TaskMonitor2.Addr)
    (turns : List (Turn UInt32 TaskMonitor2.Answers)) (d : TaskMonitorIoctl.Driver)
    (turns' : List (Turn UInt32 (Option TaskMonitor.Task × TaskMonitor.TaskSample))) :
    ((∀ u ∈ states (TaskMonitor2.monitorFn hz) { state := s } turns, u.Rested) ∧
        ∀ u ∈ states (TaskMonitorIoctl.monitorFn hz) { state := d } turns', u.Rested) ↔
      StepsMeet (TaskMonitor2.monitorFn hz)
          (fun u i => u.Reaches i → i.param ≠ 0 ∧ 20 * i.param.toNat ≤ hz.toNat)
          { state := s } turns ∧
        StepsMeet (TaskMonitorIoctl.monitorFn hz) (fun u i => u.Reaches i → i.param ≠ 0)
          { state := d } turns' :=
  and_congr (rested_iff (fun _ => TaskMonitor2.sleeps_monitorTimeout_iff) (rested_start s))
    (rested_iff (fun _ => TaskMonitorIoctl.sleeps_monitorTimeout_iff) (rested_start d))

/-- With 250 jiffies a second, a `frequency` of 13 is too much for the one thread and a `frequency` of
0 too little for the other. -/
theorem not_rested_monitorFn :
    (¬ ∀ u ∈ states (TaskMonitor2.monitorFn 250)
        { state := (TaskMonitor2.State.loaded, TaskMonitor2.null) }
        [{ shouldStop := false, param := 13, left := 0, answers := fun _ => (none, none) }],
          u.Rested) ∧
      ¬ ∀ u ∈ states (TaskMonitorIoctl.monitorFn 250) { state := TaskMonitorIoctl.startedModule }
        [{ shouldStop := false, param := 0, left := 0, answers := (none, ⟨0, 0⟩) }], u.Rested := by
  constructor
  · intro hrested
    have hturns := (rested_iff (fun _ => TaskMonitor2.sleeps_monitorTimeout_iff)
      (rested_start _)).1 hrested
    have hparam := hturns.1 ⟨rfl, rfl⟩
    exact absurd hparam.2 (by decide)
  · intro hrested
    have hturns := (rested_iff (fun _ => TaskMonitorIoctl.sleeps_monitorTimeout_iff)
      (rested_start _)).1 hrested
    exact absurd rfl (hturns.1 ⟨rfl, rfl⟩)

end Pnl.MonitorFn
