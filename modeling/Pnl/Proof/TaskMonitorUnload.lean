import Pnl.Lib.Runs
import Pnl.Proof.SysfsStore
import Pnl.TaskMonitorLife

/-!
# A module that frees what its file still shows

While the module is loaded, its thread and the readers of its file look at a `task_monitor` that is
there. `monitor_exit` frees it with the file still in place: a reader that comes then reads freed
memory, and a writer can stop the stopped thread once more or start one that outlives the module.
`monitor_init` reports success when it could not create the file, and frees what the thread it
started looks at.
-/

namespace Pnl.TaskMonitorSysfs

open Kthreads Runs SysfsStore TaskMonitor2
open TaskMonitor (Pid TaskSample esrch)

/-! ### Safety -/

/-- Nothing is left of the module. -/
structure Life.Clean (s : Life) : Prop where
  alive : s.module.threads.alive = ∅
  tms : s.tms = ∅
  pidRefs : ∀ p, s.pidRefs p = 0
  tmObj : s.tmObj = false

/-- Nothing was misused. While the module is loaded, `run` says whether its one thread is alive, and
`tm` is allocated; no thread outlives the start of `monitor_exit`; and in the end nothing is left. -/
structure Life.Safe (s : Life) : Prop where
  faults : s.faults = []
  stops : s.module.threads.badStops = 0
  loaded : s.phase = .loaded →
    s.module.threads.Right s.module.run s.module.monitorThread ∧ s.tm ∈ s.tms
  exiting : s.phase = .exiting → s.module.threads.alive = ∅
  gone : s.phase = .gone → s.Clean

def Stops (md : Module) (buf : List UInt8) : Prop := stopCommand <+: buf ∧ md.run = true

def Starts (md : Module) (buf : List UInt8) : Prop :=
  startCommand.take 4 <+: buf ∧ md.run = false

/-- Nobody reads the file of a module that is being unloaded, or switches its thread. Of a loaded
module, every start succeeds. -/
def Careful (s : Life) : Action → Prop
  | .sysfsShow _ => s.phase = .loaded
  | .sysfsStore buf thread =>
      (Starts s.module buf → (isErr thread = false ↔ s.phase = .loaded))
        ∧ (Stops s.module buf → s.phase = .loaded)
  | .turn _ _ | .stopAndFree | .removeFile => True

instance (md : Module) (buf : List UInt8) : Decidable (Stops md buf) :=
  inferInstanceAs (Decidable (_ ∧ _))

instance (md : Module) (buf : List UInt8) : Decidable (Starts md buf) :=
  inferInstanceAs (Decidable (_ ∧ _))

instance (s : Life) : (action : Action) → Decidable (Careful s action)
  | .sysfsShow _ => inferInstanceAs (Decidable (_ = _))
  | .sysfsStore _ _ => inferInstanceAs (Decidable ((_ → _) ∧ (_ → _)))
  | .turn _ _ | .stopAndFree | .removeFile => inferInstanceAs (Decidable True)

/-! ### What an action does -/

theorem readTm_of_mem {s : Life} (h : s.tm ∈ s.tms) : s.readTm = s := if_pos h

theorem printSample_of_mem {s : Life} (h : s.tm ∈ s.tms) (task : Option Task) :
    ∃ log, s.printSample task = { s with log := log } := by
  simp only [Life.printSample, Life.getSample, readTm_of_mem h]
  cases task with
  | none => exact ⟨_, rfl⟩
  | some task =>
      dsimp only
      split <;> exact ⟨_, rfl⟩

theorem fault_ne_nil (s : Life) (f : Fault) : (s.fault f).faults ≠ [] := List.cons_ne_nil _ _

theorem faults_readTm {s : Life} (h : s.faults ≠ []) : s.readTm.faults ≠ [] := by
  rw [Life.readTm]
  split
  · exact h
  · exact fault_ne_nil s _

/-- Whatever it prints, a sample of a freed `task_monitor` is a fault. -/
theorem printSample_of_notMem {s : Life} (h : s.tm ∉ s.tms) (task : Option Task) :
    (s.printSample task).faults ≠ [] := by
  have hread : s.readTm.faults ≠ [] := by
    rw [Life.readTm, if_neg h]
    exact fault_ne_nil s _
  have hsample : (s.readTm.getSample task).1.faults ≠ [] := by
    unfold Life.getSample
    cases task with
    | none => exact faults_readTm (faults_readTm hread)
    | some task => exact faults_readTm hread
  rw [Life.printSample]
  dsimp only
  split <;> exact hsample

theorem sysfsStore_fst (md : Module) (buf : List UInt8) (thread : Addr) :
    ∃ text, (sysfsStore md buf thread).1
      = { (if Stops md buf then { md.kthreadStop with run := false }
          else if Starts md buf then { md.kthreadRun thread with run := true } else md)
        with myString := text } :=
  ⟨_, taskMonitor.store_fst buf thread⟩

/-! ### The invariant -/

/-- The module holds its `task_monitor` and one reference to the process. -/
structure Life.Held (s : Life) : Prop where
  tms : s.tms = {s.tm}
  pidRefs : s.pidRefs = fun p => if p = s.pidOf s.tm then 1 else 0

structure Life.Inv (s : Life) : Prop where
  faults : s.faults = []
  stops : s.module.threads.badStops = 0
  loaded : s.phase = .loaded →
    s.Held ∧ s.module.threads.Tracked s.module.run s.module.monitorThread
      ∧ (s.module.run = true → s.module.monitorThread ≠ null)
  unloaded : s.phase ≠ .loaded →
    s.module.threads.alive = ∅ ∧ s.tms = ∅ ∧ s.pidRefs = fun _ => 0
  gone : s.phase = .gone → s.tmObj = false

variable {s : Life}

theorem Life.Held.mem (h : s.Held) : s.tm ∈ s.tms := by
  rw [h.tms]
  exact Finset.mem_singleton_self s.tm

theorem Life.Inv.safe (h : s.Inv) : s.Safe where
  faults := h.faults
  stops := h.stops
  loaded := fun hphase => ⟨(h.loaded hphase).2.1.right, (h.loaded hphase).1.mem⟩
  exiting := fun hphase => (h.unloaded (by simp [hphase])).1
  gone := by
    intro hphase
    obtain ⟨halive, htms, hrefs⟩ := h.unloaded (by simp [hphase])
    exact ⟨halive, htms, fun p => congrFun hrefs p, h.gone hphase⟩

/-- Giving back what is held. -/
theorem Life.Held.put_free (h : s.Held) :
    s.putPid.kfree = { s with tms := ∅, pidRefs := fun _ => 0 } := by
  have href : s.pidRefs (s.pidOf s.tm) = 1 := by
    rw [h.pidRefs]
    exact if_pos rfl
  have hput : s.putPid = { s with pidRefs := fun _ => 0 } := by
    rw [Life.putPid, readTm_of_mem h.mem]
    rw [if_neg (by rw [href]; exact Nat.one_ne_zero), href, h.pidRefs]
    congr 1
    funext p
    by_cases hp : p = s.pidOf s.tm
    · rw [hp, Function.update_self]
    · rw [Function.update_of_ne hp, if_neg hp]
  rw [hput, Life.kfree, if_pos h.mem, h.tms, Finset.erase_singleton]

/-- What a stop leaves when the thread is the one that runs. -/
theorem stop_tracked {md : Module} (h : md.threads.Tracked md.run md.monitorThread)
    (hrun : md.run = true) : md.kthreadStop.threads.Tracked false md.monitorThread := by
  rw [hrun] at h
  exact h.stop

theorem Life.Inv.stopAndFree (h : s.Inv) (hphase : s.phase = .loaded) : s.stopAndFree.Inv := by
  obtain ⟨hheld, htracked, hslot⟩ := h.loaded hphase
  have hstopped : ∃ md : Module, (if s.module.run && s.module.monitorThread ≠ null then
      { s with module := s.module.kthreadStop } else s) = { s with module := md }
        ∧ md.threads.Tracked false md.monitorThread := by
    cases hrun : s.module.run with
    | true =>
        refine ⟨s.module.kthreadStop, if_pos ?_, stop_tracked htracked hrun⟩
        simpa using hslot hrun
    | false =>
        rw [hrun] at htracked
        exact ⟨s.module, if_neg (by simp), htracked⟩
  obtain ⟨md, heq, hmd⟩ := hstopped
  have hheld' : Life.Held { s with module := md } := ⟨hheld.tms, hheld.pidRefs⟩
  rw [Life.stopAndFree, heq, hheld'.put_free]
  exact ⟨h.faults, hmd.stops, fun h => absurd h (by simp),
    fun _ => ⟨hmd.alive, rfl, rfl⟩, fun h => absurd h (by simp)⟩

theorem Life.Inv.removeFile (h : s.Inv) (hphase : s.phase = .exiting) : s.removeFile.Inv := by
  obtain ⟨halive, htms, hrefs⟩ := h.unloaded (by simp [hphase])
  exact ⟨h.faults, h.stops, fun h => absurd h (by simp [Life.removeFile]),
    fun _ => ⟨halive, htms, hrefs⟩, fun _ => rfl⟩

theorem Life.Inv.printSample (h : s.Inv) (hphase : s.phase = .loaded) (task : Option Task) :
    (s.printSample task).Inv := by
  obtain ⟨hheld, hthread⟩ := h.loaded hphase
  obtain ⟨log, heq⟩ := printSample_of_mem hheld.mem task
  rw [heq]
  exact ⟨h.faults, h.stops, fun _ => ⟨⟨hheld.tms, hheld.pidRefs⟩, hthread⟩, h.unloaded, h.gone⟩

/-- The threads after a write, in a loaded module whose start succeeds if it makes one. -/
theorem tracked_sysfsStore {md : Module} (h : md.threads.Tracked md.run md.monitorThread)
    (hslot : md.run = true → md.monitorThread ≠ null) {buf : List UInt8} {thread : Addr}
    (hthread : thread ≠ null) (hstarts : Starts md buf → isErr thread = false) :
    (sysfsStore md buf thread).1.threads.Tracked (sysfsStore md buf thread).1.run
        (sysfsStore md buf thread).1.monitorThread
      ∧ ((sysfsStore md buf thread).1.run = true →
        (sysfsStore md buf thread).1.monitorThread ≠ null) := by
  obtain ⟨text, heq⟩ := sysfsStore_fst md buf thread
  rw [heq]
  by_cases hstop : Stops md buf
  · simp only [if_pos hstop]
    exact ⟨stop_tracked h hstop.2, fun hrun => absurd hrun (by simp)⟩
  · by_cases hstart : Starts md buf
    · simp only [if_neg hstop, if_pos hstart]
      rw [hstart.2] at h
      exact ⟨h.run (hstarts hstart), fun _ => hthread⟩
    · simp only [if_neg hstop, if_neg hstart]
      exact ⟨h, hslot⟩

/-! ### One action -/

theorem Life.Inv.exiting (h : s.Inv) (hfile : s.tmObj = true) (hphase : s.phase ≠ .loaded) :
    s.phase = .exiting := by
  cases hcase : s.phase with
  | loaded => exact absurd hcase hphase
  | exiting => rfl
  | gone => exact absurd (h.gone hcase) (by simp [hfile])

theorem Life.Inv.sysfsStore_loaded (h : s.Inv) (hphase : s.phase = .loaded) {buf : List UInt8}
    {thread : Addr} (hthread : thread ≠ null) :
    (Careful s (.sysfsStore buf thread) → (step s (.sysfsStore buf thread)).Inv)
      ∧ (¬ Careful s (.sysfsStore buf thread) → ¬ (step s (.sysfsStore buf thread)).Safe) := by
  obtain ⟨hheld, htracked, hslot⟩ := h.loaded hphase
  constructor
  · intro hcareful
    obtain ⟨htracked', hslot'⟩ :=
      tracked_sysfsStore htracked hslot hthread fun hstarts => (hcareful.1 hstarts).mpr hphase
    exact ⟨h.faults, htracked'.stops, fun _ => ⟨⟨hheld.tms, hheld.pidRefs⟩, htracked', hslot'⟩,
      fun hne => absurd hphase hne, h.gone⟩
  · intro hcareful hsafe
    have hstarts : Starts s.module buf ∧ isErr thread = true := by
      by_contra hnot
      rw [not_and, Bool.not_eq_true] at hnot
      exact hcareful ⟨fun hstarts => iff_of_true (hnot hstarts) hphase, fun _ => hphase⟩
    obtain ⟨text, heq⟩ := sysfsStore_fst s.module buf thread
    have hstop : ¬ Stops s.module buf := fun hstop =>
      Bool.noConfusion (hstarts.1.2.symm.trans hstop.2)
    have hright := (hsafe.loaded hphase).1
    rw [step, heq] at hright
    simp only [if_neg hstop, if_pos hstarts.1] at hright
    rw [hstarts.1.2] at htracked
    exact htracked.not_right_run hstarts.2 hright

theorem Life.Inv.sysfsStore_exiting (h : s.Inv) (hphase : s.phase = .exiting) {buf : List UInt8}
    {thread : Addr} :
    (Careful s (.sysfsStore buf thread) → (step s (.sysfsStore buf thread)).Inv)
      ∧ (¬ Careful s (.sysfsStore buf thread) → ¬ (step s (.sysfsStore buf thread)).Safe) := by
  have hne : s.phase ≠ .loaded := by simp [hphase]
  obtain ⟨halive, htms, hrefs⟩ := h.unloaded hne
  obtain ⟨text, heq⟩ := sysfsStore_fst s.module buf thread
  have hinv : (step s (.sysfsStore buf thread)).module.threads = s.module.threads →
      (step s (.sysfsStore buf thread)).Inv := by
    intro hthreads
    refine ⟨h.faults, ?_, fun hloaded => absurd hloaded hne, fun _ => ⟨?_, htms, hrefs⟩, h.gone⟩
    · rw [hthreads]
      exact h.stops
    · rw [hthreads]
      exact halive
  by_cases hstop : Stops s.module buf
  · refine ⟨fun hcareful => absurd (hcareful.2 hstop) hne, fun _ hsafe => ?_⟩
    have hbad := hsafe.stops
    rw [step, heq] at hbad
    simp only [if_pos hstop, Module.kthreadStop, Threads.stop, halive, Finset.notMem_empty,
      if_false] at hbad
    exact Nat.succ_ne_zero _ hbad
  · by_cases hstart : Starts s.module buf
    · have hthreads : (step s (.sysfsStore buf thread)).module.threads
          = s.module.threads.run thread := by
        rw [step, heq]
        simp only [if_neg hstop, if_pos hstart, Module.kthreadRun]
      cases herr : isErr thread with
      | true =>
          rw [Threads.run, if_pos herr] at hthreads
          refine ⟨fun _ => hinv hthreads, fun hcareful => absurd ?_ hcareful⟩
          exact ⟨fun _ => iff_of_false (by simp [herr]) hne, fun hstops => absurd hstops hstop⟩
      | false =>
          rw [Threads.run, if_neg (by simp [herr])] at hthreads
          refine ⟨fun hcareful => absurd ((hcareful.1 hstart).mp herr) hne, fun _ hsafe => ?_⟩
          have hnone := hsafe.exiting hphase
          rw [hthreads] at hnone
          exact Finset.insert_ne_empty _ _ hnone
    · have hthreads : (step s (.sysfsStore buf thread)).module.threads = s.module.threads := by
        rw [step, heq]
        simp only [if_neg hstop, if_neg hstart]
      refine ⟨fun _ => hinv hthreads, fun hcareful => absurd ?_ hcareful⟩
      exact ⟨fun hstarts => absurd hstarts hstart, fun hstops => absurd hstops hstop⟩

/-- **A careful action keeps the module right, and any other one breaks it at once.** -/
theorem Life.Inv.step (h : s.Inv) {action : Action} (hpossible : Possible s action) :
    (Careful s action → (step s action).Inv) ∧ (¬ Careful s action → ¬ (step s action).Safe) := by
  cases action with
  | turn thread task =>
      have hphase : s.phase = .loaded := by
        by_contra hne
        have hmem : thread ∈ s.module.threads.alive := hpossible
        rw [(h.unloaded hne).1] at hmem
        exact Finset.notMem_empty thread hmem
      exact ⟨fun _ => h.printSample hphase task, fun hcareful => absurd trivial hcareful⟩
  | sysfsShow task =>
      refine ⟨fun hphase => h.printSample hphase task, fun hphase hsafe => ?_⟩
      have hout : s.tm ∉ s.tms := by
        rw [(h.unloaded hphase).2.1]
        exact Finset.notMem_empty s.tm
      exact printSample_of_notMem hout task hsafe.faults
  | sysfsStore buf thread =>
      by_cases hphase : s.phase = .loaded
      · exact h.sysfsStore_loaded hphase hpossible.2
      · exact h.sysfsStore_exiting (h.exiting hpossible.1 hphase)
  | stopAndFree =>
      exact ⟨fun _ => h.stopAndFree hpossible, fun hcareful => absurd trivial hcareful⟩
  | removeFile =>
      exact ⟨fun _ => h.removeFile hpossible, fun hcareful => absurd trivial hcareful⟩

/-! ### A whole life -/

/-- The module of `monitor_init` once `monitor_pid` has found the process. -/
def found (env : InitEnv) (p : Pid) : Life where
  tm := env.kmalloc
  tms := {env.kmalloc}
  pidOf := Function.update (fun _ => 0) env.kmalloc p
  pidRefs := fun p' => if p' = p then 1 else 0

theorem monitorPid_eq {env : InitEnv} (hkmalloc : env.kmalloc ≠ null) {p : Pid}
    (hpid : env.pid = some p) : Life.monitorPid {} env = (found env p, some 0) := by
  have hrefs : Function.update (fun _ => 0) p 1 = fun p' => if p' = p then 1 else 0 := by
    funext p'
    by_cases hp : p' = p
    · rw [hp, Function.update_self, if_pos rfl]
    · rw [Function.update_of_ne hp, if_neg hp]
  simp only [Life.monitorPid, hpid, if_neg hkmalloc, Nat.zero_add, hrefs]
  rfl

theorem held_found {env : InitEnv} {p : Pid} (htm : s.tm = env.kmalloc)
    (htms : s.tms = {env.kmalloc}) (hpid : s.pidOf env.kmalloc = p)
    (hrefs : s.pidRefs = fun p' => if p' = p then 1 else 0) : s.Held := by
  refine ⟨by rw [htms, htm], ?_⟩
  rw [hrefs, htm, hpid]

theorem put_free_found (env : InitEnv) (p : Pid) (htm : s.tm = env.kmalloc)
    (htms : s.tms = {env.kmalloc}) (hpid : s.pidOf env.kmalloc = p)
    (hrefs : s.pidRefs = fun p' => if p' = p then 1 else 0) :
    s.putPid.kfree = { s with tms := ∅, pidRefs := fun _ => 0 } :=
  (held_found htm htms hpid hrefs).put_free

theorem pidOf_found (env : InitEnv) (p : Pid) : (found env p).pidOf env.kmalloc = p :=
  Function.update_self (β := fun _ => Pid) env.kmalloc p fun _ => 0

/-- What `monitor_init` leaves of a module that was never loaded before. -/
theorem monitorInit_cases {env : InitEnv} (hkmalloc : env.kmalloc ≠ null)
    (hthread : env.thread ≠ null) :
    ((monitorInit {} env).2 ≠ some 0 ∧ (monitorInit {} env).1.Clean
        ∧ (monitorInit {} env).1.faults = [])
      ∨ (monitorInit {} env).2 = some 0
        ∧ (env.sysfsCreateFile = 0 → (monitorInit {} env).1.Inv)
        ∧ (env.sysfsCreateFile ≠ 0 → ¬ (monitorInit {} env).1.Safe) := by
  cases hpid : env.pid with
  | none =>
      have hinit : monitorInit {} env = (Life.print {} (.notFound env.target), some (-esrch)) := by
        simp only [monitorInit, Life.monitorPid, hpid]
        rfl
      rw [hinit]
      exact Or.inl ⟨by simp [esrch], ⟨rfl, rfl, fun _ => rfl, rfl⟩, rfl⟩
  | some p =>
      have hrun : (Module.kthreadRun {} env.thread).threads
          = if isErr env.thread then {} else { alive := {env.thread} } := rfl
      simp only [monitorInit, monitorPid_eq hkmalloc hpid, ne_eq, not_true_eq_false, if_false]
      cases herr : isErr env.thread with
      | true =>
          rw [if_pos herr] at hrun
          rw [if_pos rfl, put_free_found env p]
          · refine Or.inl ⟨by simp [ptrErr_ne_zero herr], ⟨?_, rfl, fun _ => rfl, rfl⟩, rfl⟩
            exact congrArg Threads.alive hrun
          · rfl
          · rfl
          · exact pidOf_found env p
          · rfl
      | false =>
          rw [if_neg Bool.false_ne_true]
          by_cases hfile : env.sysfsCreateFile = 0
          · rw [if_neg (not_not_intro hfile)]
            refine Or.inr ⟨rfl, fun _ => ?_, fun hne => absurd hfile hne⟩
            have htracked : Threads.Tracked (Module.kthreadRun {} env.thread).threads true
                env.thread := by
              have hnone : Threads.Tracked {} false (null : Addr) := ⟨rfl, rfl⟩
              exact hnone.run herr
            exact ⟨rfl, htracked.stops,
              fun _ => ⟨held_found rfl rfl (pidOf_found env p) rfl, htracked, fun _ => hthread⟩,
              fun hne => absurd rfl hne, fun hgone => Phase.noConfusion hgone⟩
          · rw [if_pos hfile]
            refine Or.inr ⟨rfl, fun h => absurd h hfile, fun _ hsafe => ?_⟩
            rw [put_free_found env p] at hsafe
            · exact Finset.notMem_empty _ (hsafe.loaded rfl).2
            · rfl
            · rfl
            · exact pidOf_found env p
            · rfl

/-- **When the module is safe.** A module that was not loaded has nothing left. One that was, is
right in every state exactly when its file could be created, every start succeeds while it is loaded,
and nobody uses the file once `monitor_exit` has begun. -/
theorem life_safe_iff {env : InitEnv} (hkmalloc : env.kmalloc ≠ null)
    (hthread : env.thread ≠ null) :
    ((monitorInit {} env).2 ≠ some 0 → (monitorInit {} env).1.Clean
        ∧ (monitorInit {} env).1.faults = [])
      ∧ ((monitorInit {} env).2 = some 0 → ∀ actions,
        StepsMeet step Possible (monitorInit {} env).1 actions →
          ((∀ s ∈ states step (monitorInit {} env).1 actions, s.Safe)
            ↔ env.sysfsCreateFile = 0
              ∧ StepsMeet step Careful (monitorInit {} env).1 actions)) := by
  rcases monitorInit_cases hkmalloc hthread with ⟨hres, hclean⟩ | ⟨hres, hinv, hbroken⟩
  · exact ⟨fun _ => hclean, fun h => absurd h hres⟩
  · refine ⟨fun h => absurd hres h, fun _ actions hpossible => ?_⟩
    by_cases hfile : env.sysfsCreateFile = 0
    · have hexact : ∀ (s : Life) action, s.Inv → Possible s action →
          ((step s action).Safe ↔ Careful s action) := by
        intro s action hs hstep
        refine ⟨fun hsafe => ?_, fun hcareful => ((hs.step hstep).1 hcareful).safe⟩
        by_contra hcareful
        exact (hs.step hstep).2 hcareful hsafe
      rw [forall_states_iff_cond hexact (fun s action hs hstep => (hs.step hstep).1)
        (fun _ hs => hs.safe) (hinv hfile) hpossible]
      exact (and_iff_right hfile).symm
    · exact iff_of_false (fun hsafe => hbroken hfile (forall_states_iff.mp hsafe).1)
        fun h => hfile h.1

/-- The thread prints, is stopped and started again, and the module goes. -/
def visit : List Action :=
  [.turn 0x4000 (some ⟨true, ⟨3, 5⟩⟩), .sysfsStore stopText 0x5000, .sysfsShow none,
    .sysfsStore (startCommand ++ [0]) 0x5000, .turn 0x5000 none, .stopAndFree, .removeFile]

def visitEnv : InitEnv where
  target := 1
  pid := some 1
  kmalloc := 0x1000
  thread := 0x4000
  sysfsCreateFile := 0

theorem life_safe_visit : (final step (monitorInit {} visitEnv).1 visit).Safe := by
  have hkmalloc : visitEnv.kmalloc ≠ null := by decide
  have hthread : visitEnv.thread ≠ null := by decide
  have hsafe := ((life_safe_iff hkmalloc hthread).2 rfl visit (by decide)).mpr ⟨rfl, by decide⟩
  exact hsafe _ final_mem_states

end Pnl.TaskMonitorSysfs
