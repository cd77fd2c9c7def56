import Pnl.Proof.MonitorFnSleeps
import Pnl.Proof.TaskMonitor2Sysfs
import Pnl.Proof.TaskMonitor2Thread
import Pnl.TaskMonitor2System

/-!
# The task monitor as a recorder

What the module is for fits in two variables: whether it records, and what it has recorded of each
process. Turns of the thread add to the records, memory reclaim empties them, writes to the sysfs
file switch the recording, and nothing else has an effect. The module does that with a thread, counted
references, lists of slab objects and a page of text, and both files show what the recorder holds, as
long as no scan harms a neighbour of a sample and nobody else writes to the head of the list.
-/

namespace Pnl.TaskMonitor2

open Bytes Krefs Kthreads Ledgers Runs

/-! ### The recorder -/

/-- What is known of a process, from the oldest sample on. -/
structure Record where
  monitor : Addr
  pid : Int32
  times : List Times

structure Recorder where
  running : Bool
  kept : List Record

/-- What an object of the cache holds once it is a sample. -/
def taken : Option (Addr × Times) → Option Task → List Times
  | none, _ => []
  | some (_, contents), task => [(getSample task contents).1]

def Record.add (k : Record) (answer : Option (Addr × Times) × Option Task) : Record :=
  { k with times := k.times ++ taken answer.1 answer.2 }

def Record.cleared (k : Record) : Record := { k with times := [] }

def Recorder.after (r : Recorder) : Event → Recorder
  | .turn _ answers =>
      if r.running then { r with kept := r.kept.map fun k => k.add (answers k.monitor) } else r
  | .sysfsStore buf thread =>
      let w : Write := { buf := buf, thread := thread }
      if w.Matches stopCommand then { r with running := false }
      else if w.Matches startCommand then { r with running := true }
      else r
  | .myShrinkScan gfpMask =>
      if gfpMask &&& gfpFs = 0 then r else { r with kept := r.kept.map Record.cleared }
  | .myShrinkCount => r
  | .sysfsShow _ => r
  | .debugfsTaskMonitorShow => r
  | .otherStore _ => r

/-- What is shown of a process, from the newest sample on. -/
def Record.entries (k : Record) : List (Int32 × Times) := k.times.reverse.map fun t => (k.pid, t)

def Recorder.entries (r : Recorder) : List (Int32 × Times) := r.kept.flatMap Record.entries

/-! ### What the module keeps -/

def State.kept (s : State) : List Record :=
  s.tasks.map fun m => { monitor := m, pid := s.pid m, times := (s.head m).map s.times }

theorem entries_kept (s : State) : s.kept.flatMap Record.entries = s.entries s.tasks := by
  rw [State.kept, State.entries, List.flatMap_map]
  apply List.flatMap_congr
  intro m _
  rw [Record.entries, ← List.map_reverse, List.map_map]
  rfl

theorem map_kept {s s' : State} (htasks : s'.tasks = s.tasks) (f : Record → Record)
    (h : ∀ m ∈ s.tasks, (⟨m, s'.pid m, (s'.head m).map s'.times⟩ : Record)
      = f ⟨m, s.pid m, (s.head m).map s.times⟩) : s'.kept = s.kept.map f := by
  rw [State.kept, State.kept, List.map_map, htasks]
  exact List.map_congr_left h

/-- The record of one monitor after `save_sample`. -/
def Record.saved (m : Addr) (answer : Option (Addr × Times) × Option Task) (k : Record) : Record :=
  if k.monitor = m then k.add answer else k

theorem Accounted.kept_saveSample {s : State} (h : Accounted s) {m : Addr}
    {answer : Option (Addr × Times) × Option Task}
    (hallowed : (Call.saveSample m answer.1 answer.2).Allowed s) :
    (step s (.saveSample m answer.1 answer.2)).kept = s.kept.map (Record.saved m answer) := by
  obtain ⟨htm, hfresh⟩ := hallowed
  obtain ⟨alloc, task⟩ := answer
  cases alloc with
  | none =>
      refine map_kept rfl _ fun m' _ => ?_
      rw [Record.saved, Record.add, taken]
      dsimp only
      rw [List.append_nil, ite_self]
  | some object =>
      obtain ⟨ts, contents⟩ := object
      have hnew : ts ∉ s.samples.live := hfresh _ rfl
      rw [step, h.toAllocated.saveSample_eq htm]
      set times := (getSample task contents).1 with htimes
      have htasks : (s.saved m ts times).tasks = s.tasks := rfl
      refine map_kept htasks _ fun m' hm' => ?_
      have hold : (s.head m').map (s.saved m ts times).times = (s.head m').map s.times := by
        apply List.map_congr_left
        intro t ht
        exact Function.update_of_ne (fun hts : t = ts => hnew (hts ▸ h.samples m' hm' t ht)) _ _
      have hself : (s.saved m ts times).times ts = times := Function.update_self _ _ _
      rw [Record.saved]
      dsimp only
      split_ifs with hmm
      · rw [hmm] at hold ⊢
        rw [saved_head_self, List.map_append, hold, List.map_singleton, hself]
        rfl
      · rw [saved_head_of_ne s hmm, hold]
        rfl

/-- **A turn adds one sample to each record**, unless the cache has no object for it. -/
theorem Accounted.kept_turn {s : State} (h : Accounted s) {answers : Answers} {ms : List Addr}
    (hnodup : ms.Nodup)
    (hallowed : StepsMeet step Call.Allowed s
      (ms.map fun m => .saveSample m (answers m).1 (answers m).2)) :
    Accounted (final step s (ms.map fun m => .saveSample m (answers m).1 (answers m).2))
      ∧ (final step s (ms.map fun m => .saveSample m (answers m).1 (answers m).2)).kept
        = s.kept.map fun k => if k.monitor ∈ ms then k.add (answers k.monitor) else k := by
  induction ms generalizing s with
  | nil =>
      refine ⟨h, ?_⟩
      simp [final]
  | cons m ms ih =>
      obtain ⟨hnotin, hnodup⟩ := List.nodup_cons.mp hnodup
      obtain ⟨hfirst, hrest⟩ := hallowed
      obtain ⟨haccounted, hkept⟩ := ih (accounted_step s _ h hfirst) hnodup hrest
      refine ⟨haccounted, ?_⟩
      have hfinal : final step s ((m :: ms).map fun m => .saveSample m (answers m).1 (answers m).2)
          = final step (step s (.saveSample m (answers m).1 (answers m).2))
            (ms.map fun m => .saveSample m (answers m).1 (answers m).2) := rfl
      rw [hfinal, hkept, h.kept_saveSample hfirst, List.map_map]
      apply List.map_congr_left
      intro k _
      rw [Function.comp_apply, Record.saved]
      by_cases hkm : k.monitor = m
      · have hmonitor : (k.add (answers m)).monitor = m := hkm
        rw [if_pos hkm, hmonitor, if_neg hnotin, hkm, if_pos List.mem_cons_self]
      · rw [if_neg hkm]
        simp [hkm]

theorem droppedAll_pid (s : State) (ts : List Addr) : (s.droppedAll ts).pid = s.pid := by
  induction ts generalizing s with
  | nil => rfl
  | cons t ts ih => exact ih (s.dropped t)

theorem kept_droppedAll (s : State) :
    (s.droppedAll s.listed).kept = s.kept.map Record.cleared := by
  refine map_kept (droppedAll_tasks s s.listed) _ fun m hm => ?_
  rw [droppedAll_listed_head s hm, droppedAll_pid, List.map_nil, Record.cleared]

theorem Accounted.kept_scan {s : State} (h : Accounted s) (gfpMask : UInt32) :
    (TaskMonitor2.myShrinkScan s gfpMask).1.kept
      = if gfpMask &&& gfpFs = 0 then s.kept else s.kept.map Record.cleared := by
  split_ifs with hmask
  · rw [myShrinkScan_of_mask hmask]
  · rw [h.myShrinkScan_eq refs_one_ne_zero hmask]
    exact kept_droppedAll s

/-! ### One event -/

/-- The module implements the recorder. -/
structure Keeps (md : Module) (r : Recorder) : Prop where
  accounted : Accounted md.state
  thread : md.ThreadKept
  running : r.running = md.run
  kept : r.kept = md.state.kept

/-- What the thread asks of `save_sample` in a turn. -/
def turnCalls (answers : Answers) (s : State) : List Call :=
  s.tasks.map fun m => .saveSample m (answers m).1 (answers m).2

/-- What an event may count on: a thread takes turns while it is alive, the cache returns objects that
are not allocated, `kthread_run` returns a thread, sysfs passes a page of zeros, and the block of
`all_tasks` is nobody else's. -/
def Event.Possible (md : Module) : Event → Prop
  | .turn thread answers =>
      thread ∈ md.threads.alive ∧ StepsMeet step Call.Allowed md.state (turnCalls answers md.state)
  | .sysfsStore buf thread =>
      thread ≠ null ∧ ({ buf := buf, thread := thread } : Write).Succeeds md
  | .sysfsShow buf => buf = List.replicate pageSize 0
  | .otherStore offset => sizeofAllTasks ≤ offset
  | _ => True

/-- No scan harms a neighbour of a sample, and nobody writes to the head of the list. -/
def Event.Spares (md : Module) : Event → Prop
  | .myShrinkScan gfpMask => gfpMask &&& gfpFs = 0 ∨ md.state.Clear md.state.tasks
  | .otherStore offset => ¬ HitsHead offset
  | _ => True

/-- What an event does to the lists and their memory. -/
def Event.deeds (md : Module) : Event → List Deed
  | .turn _ answers => (turnCalls answers md.state).map .call
  | .sysfsStore _ _ => []
  | .myShrinkScan gfpMask => [.call (.myShrinkScan gfpMask)]
  | .myShrinkCount => [.call .myShrinkCount]
  | .sysfsShow buf => [.call (.sysfsShow buf)]
  | .debugfsTaskMonitorShow => [.call .debugfsTaskMonitorShow]
  | .otherStore offset => [.otherStore offset]

theorem state_store (md : Module) (w : Write) : (store md w).state = md.state := by
  have hstored := stored_store md w
  generalize store md w = md' at hstored ⊢
  cases hstored <;> rfl

theorem run_store (md : Module) (w : Write) :
    (store md w).run = if w.Matches stopCommand then false
      else if w.Matches startCommand then true else md.run := by
  have hstop := matches_iff stopCommand (by decide) (by decide) w md.myString
  have hstart := matches_iff startCommand (by decide) (by decide) w md.myString
  rw [store, sysfsStore]
  dsimp only
  set myString := strncpy md.myString w.buf 255
  by_cases hmatches : w.Matches stopCommand
  · have hnot := hstart.not.mpr hmatches.not_start
    rw [if_pos hmatches, if_pos (hstop.mpr hmatches)]
    cases hrun : md.run with
    | true =>
        simp only [if_true, Module.kthreadStop]
        rw [if_neg hnot]
    | false =>
        simp only [Bool.false_eq_true, if_false]
        rw [if_neg hnot]
  · rw [if_neg hmatches, if_neg (hstop.not.mpr hmatches)]
    simp only [hstart]
    split_ifs with hmatches' hrun
    · exact hrun
    · rfl
    · rfl

theorem Module.ThreadKept.withState {md : Module} (h : md.ThreadKept) (s : State) :
    Module.ThreadKept { md with state := s } :=
  ⟨h.tracked, h.thread⟩

section Event

variable {md : Module} {event : Event}

/-- **An event is deeds one after another.** -/
theorem happen_state (h : Accounted md.state) :
    (happen md event).state = final act md.state (event.deeds md) := by
  cases event with
  | turn thread answers =>
      have hturn := h.referenced.sampleMonitors_eq (List.Subset.refl _) answers null
      rw [Event.deeds, final_map]
      exact hturn
  | sysfsStore buf thread => exact state_store md ⟨buf, thread⟩
  | _ => rfl

theorem Event.Possible.deeds (h : event.Possible md) :
    StepsMeet act Deed.Allowed md.state (event.deeds md) := by
  cases event with
  | turn thread answers => exact (stepsMeet_map Deed.call).mpr h.2
  | sysfsStore buf thread => trivial
  | sysfsShow buf =>
      have hbuf : buf.length = pageSize := by
        rw [show buf = List.replicate pageSize 0 from h, List.length_replicate]
      exact ⟨hbuf, trivial⟩
  | otherStore offset => exact ⟨h, trivial⟩
  | _ => exact ⟨trivial, trivial⟩

theorem happen_accounted (h : Accounted md.state) (hpossible : event.Possible md) :
    Accounted (happen md event).state ∧ (happen md event).state.tasks = md.state.tasks
      ∧ (happen md event).state.monitors = md.state.monitors := by
  rw [happen_state h]
  exact final_monitors h hpossible.deeds

theorem Keeps.sameState {r : Recorder} (h : Keeps md r) {s : State} (hs : s = md.state) :
    Keeps { md with state := s } r := by
  rw [hs]
  exact h

/-- **One event.** -/
theorem Keeps.happen {r : Recorder} (h : Keeps md r) (hpossible : event.Possible md) :
    Keeps (TaskMonitor2.happen md event) (r.after event) := by
  have haccounted := (happen_accounted h.accounted hpossible).1
  cases event with
  | turn thread answers =>
      obtain ⟨halive, hcalls⟩ := hpossible
      have hrun : md.run = true := by
        by_contra hstopped
        rw [h.thread.tracked.alive, if_neg hstopped] at halive
        exact Finset.notMem_empty _ halive
      have hkept := (h.accounted.kept_turn h.accounted.tasks_nodup hcalls).2
      have hstate : (TaskMonitor2.happen md (.turn thread answers)).state
          = final step md.state (turnCalls answers md.state) :=
        h.accounted.referenced.sampleMonitors_eq (List.Subset.refl _) answers null
      have hafter : r.after (.turn thread answers)
          = { r with kept := r.kept.map fun k => k.add (answers k.monitor) } :=
        if_pos (h.running.trans hrun)
      rw [hafter]
      refine ⟨haccounted, h.thread.withState _, h.running, ?_⟩
      dsimp only
      rw [hstate, turnCalls, hkept, h.kept]
      apply List.map_congr_left
      intro k hk
      obtain ⟨m, hm, rfl⟩ := List.mem_map.mp hk
      exact (if_pos hm).symm
  | sysfsStore buf thread =>
      have hthread := (h.thread.store_iff hpossible.1).2 hpossible.2
      have hrunning : (r.after (.sysfsStore buf thread)).running
          = (store md ⟨buf, thread⟩).run := by
        rw [run_store, ← h.running, Recorder.after]
        split_ifs <;> rfl
      have hkept : (r.after (.sysfsStore buf thread)).kept
          = (store md ⟨buf, thread⟩).state.kept := by
        rw [state_store, ← h.kept, Recorder.after]
        split_ifs <;> rfl
      exact ⟨haccounted, hthread, hrunning, hkept⟩
  | myShrinkScan gfpMask =>
      have hkept : (r.after (.myShrinkScan gfpMask)).kept
          = (myShrinkScan md.state gfpMask).1.kept := by
        rw [h.accounted.kept_scan, ← h.kept, Recorder.after]
        split_ifs <;> rfl
      have hrunning : (r.after (.myShrinkScan gfpMask)).running = md.run := by
        rw [← h.running, Recorder.after]
        split_ifs <;> rfl
      exact ⟨haccounted, h.thread.withState _, hrunning, hkept⟩
  | myShrinkCount =>
      apply h.sameState
      rw [h.accounted.myShrinkCount_eq refs_one_ne_zero]
  | sysfsShow buf => exact h.sameState (h.accounted.referenced.sysfsShow_state hpossible.deeds.1)
  | debugfsTaskMonitorShow => exact h.sameState h.accounted.referenced.debugfsTaskMonitorShow_state
  | otherStore offset => exact ⟨haccounted, h.thread.withState _, h.running, h.kept⟩

end Event

/-! ### Runs -/

theorem length_entries (s : State) :
    (s.entries s.tasks).length = s.listed.length := by
  rw [State.entries, State.listed, List.length_flatMap, List.length_flatMap]
  congr 1
  apply List.map_congr_left
  intro m _
  rw [List.length_map, List.length_reverse]

/-- What users and the kernel see of the module is what the recorder says: the thread lives while it
runs, both files list what is kept, a scan that harms no neighbour of a sample frees and counts that
many objects, no freed object was used and nothing went astray. -/
structure Shows (md : Module) (r : Recorder) : Prop where
  thread : md.threads.alive = if r.running then {md.monitorThread} else ∅
  debugfs : (debugfsTaskMonitorShow md.state).2 = listing debugfsLine 0 r.entries
  sysfs : (sysfsShow md.state (List.replicate pageSize 0)).2
    = (padded pageSize (fullListing 0 r.entries),
      ((fullListing 0 r.entries).take (pageSize - 1)).length)
  scan : ∀ gfpMask, gfpMask &&& gfpFs ≠ 0 → md.state.Clear md.state.tasks →
    (myShrinkScan md.state gfpMask).2 = UInt64.ofNat r.entries.length
      ∧ (myShrinkScan md.state gfpMask).1.samples.freed.length
        = md.state.samples.freed.length + r.entries.length
  faults : md.state.samples.faults = 0 ∧ md.state.monitors.faults = 0
  sound : md.state.Sound

theorem Keeps.entries {md : Module} {r : Recorder} (h : Keeps md r) :
    r.entries = md.state.entries md.state.tasks := by
  rw [Recorder.entries, h.kept, entries_kept]

theorem Keeps.shows {md : Module} {r : Recorder} (h : Keeps md r) (hsound : md.state.Sound) :
    Shows md r where
  thread := by
    rw [h.running]
    exact h.thread.tracked.alive
  debugfs := by
    rw [h.entries]
    exact h.accounted.debugfs_text
  sysfs := by
    rw [h.entries]
    rw [h.accounted.referenced.sysfsShow_eq, State.fullText]
  scan := by
    intro gfpMask hmask _
    rw [h.accounted.myShrinkScan_eq refs_one_ne_zero hmask, h.entries, length_entries]
    refine ⟨rfl, ?_⟩
    rw [droppedAll_freed, List.length_append, List.length_reverse, Nat.add_comm]
  faults := ⟨h.accounted.sample_faults, h.accounted.monitor_faults⟩
  sound := hsound

/-! ### Loading -/

/-- The recorder of a module that has just been loaded. -/
def Recorder.loaded (env : InitEnv) : Recorder where
  running := true
  kept := env.pid.toList.map fun pid => { monitor := env.kmalloc, pid := pid, times := [] }

section Init

variable {md md₀ : Module} (hrest : md.AtRest) {env : InitEnv} (hallowed : env.Allowed md.state)
  (hsucceeds : env.Succeeds) (hinit : monitorInit md env = (md₀, some 0))

include hrest hallowed hsucceeds hinit

end Init

instance Event.decidablePossible (md : Module) : (event : Event) → Decidable (event.Possible md)
  | .turn _ _ => inferInstanceAs (Decidable (_ ∧ _))
  | .sysfsStore _ _ => inferInstanceAs (Decidable (_ ∧ _))
  | .sysfsShow _ => inferInstanceAs (Decidable (_ = _))
  | .otherStore _ => inferInstanceAs (Decidable (_ ≤ _))
  | .myShrinkScan _ => inferInstanceAs (Decidable True)
  | .myShrinkCount => inferInstanceAs (Decidable True)
  | .debugfsTaskMonitorShow => inferInstanceAs (Decidable True)

instance Event.decidableSpares (md : Module) : (event : Event) → Decidable (event.Spares md)
  | .myShrinkScan _ => inferInstanceAs (Decidable (_ ∨ _))
  | .otherStore _ => inferInstanceAs (Decidable (¬ _))
  | .turn _ _ => inferInstanceAs (Decidable True)
  | .sysfsStore _ _ => inferInstanceAs (Decidable True)
  | .myShrinkCount => inferInstanceAs (Decidable True)
  | .sysfsShow _ => inferInstanceAs (Decidable True)
  | .debugfsTaskMonitorShow => inferInstanceAs (Decidable True)

/-- What a loaded module has to release, the frees of `task_monitor_release` apart. -/
structure Module.Holds (md : Module) : Prop where
  tasks : md.state.tasks.length = 1
  freed : md.state.monitors.freed = []
  ledger : ∀ r, md.ledger.acquired r
    = md.ledger.released r + if r = .thread ∧ md.run = false then 0 else 1

theorem Module.Holds.store {md : Module} (h : md.Holds) {w : Write} (hsucceeds : w.Succeeds md) :
    (store md w).Holds := by
  have hstored := stored_store md w
  generalize TaskMonitor2.store md w = md' at hstored ⊢
  cases hstored with
  | stopped myString hmatches hrun =>
      refine ⟨h.tasks, h.freed, fun r => ?_⟩
      have hledger := h.ledger r
      dsimp only [Module.kthreadStop]
      rw [released_releaseAll, acquired_releaseAll, hledger, hrun]
      cases r <;> rfl
  | started myString hmatches hrun =>
      refine ⟨h.tasks, h.freed, fun r => ?_⟩
      have hledger := h.ledger r
      dsimp only [Module.kthreadRun]
      rw [hsucceeds hmatches hrun, acquired_acquireAll, released_acquireAll, hledger, hrun]
      cases r <;> rfl
  | ignored myString hstart => exact ⟨h.tasks, h.freed, h.ledger⟩

theorem Module.Holds.happen {md : Module} (h : md.Holds) (haccounted : Accounted md.state)
    {event : Event} (hpossible : event.Possible md) : (happen md event).Holds := by
  obtain ⟨-, htasks, hmonitors⟩ := happen_accounted haccounted hpossible
  have hlength := (congrArg List.length htasks).trans h.tasks
  have hfreed := (congrArg Pool.freed hmonitors).trans h.freed
  cases event with
  | sysfsStore buf thread => exact @Module.Holds.store md h ⟨buf, thread⟩ hpossible.2
  | _ => exact ⟨hlength, hfreed, h.ledger⟩

/-- Nothing is left of the module, nothing was given back twice, and nothing went astray. -/
structure Module.Gone (md : Module) : Prop where
  thread : md.ThreadGone
  books : ∀ r, md.books.released r = md.books.acquired r
  objects : md.state.samples.live = ∅ ∧ md.state.monitors.live = ∅
  faults : md.state.samples.faults = 0 ∧ md.state.monitors.faults = 0
  sound : md.state.Sound

end Pnl.TaskMonitor2
