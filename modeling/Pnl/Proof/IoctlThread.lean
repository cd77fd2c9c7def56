import Mathlib.Data.Finset.Card
import Pnl.Lib.Runs
import Pnl.TaskMonitorIoctl

/-!
# The monitor thread

Of the four operations that stop or start the thread, only two look at `run` and update it. The
thread and `run` stay together as long as the other two are used while the thread runs, and
`TASKMON_SET_PID` gets as far as starting a new one; the first use outside that separates them.
-/

namespace Pnl.TaskMonitorIoctl

open Bytes Kthreads Runs TaskMonitor

structure Driver.ThreadOk (d : Driver) : Prop where
  one : d.alive.card ≤ 1
  run : d.run = true ↔ d.monitorThread ∈ d.alive
  stops : Fault.stopOfStopped ∉ d.faults

structure Driver.ThreadGone (d : Driver) : Prop where
  none : d.alive = ∅
  stops : Fault.stopOfStopped ∉ d.faults

def ThreadsOk (d : Driver) (calls : List Ioctl) (unload : Bool) : Prop :=
  (∀ d' ∈ states step d calls, d'.ThreadOk)
    ∧ (unload = true → (monitorExit (final step d calls)).ThreadGone)

/-- `kthread_run` gives a thread that is not alive, and `kmalloc` a block that is not allocated. -/
def Ioctl.Fresh (d : Driver) : Ioctl → Prop
  | .taskmonStart thread => thread ∉ d.alive ∧ thread ≠ null ∧ isErr thread = false
  | .taskmonSetPid _ _ kmalloc thread =>
      thread ∉ d.alive.erase d.monitorThread ∧ thread ≠ null ∧ isErr thread = false
        ∧ kmalloc ∉ d.tms.erase d.tm
  | _ => True

/-- A `TASKMON_SET_PID` comes while the thread runs, and gets a pid and memory. -/
def Ioctl.KeepsThread (d : Driver) : Ioctl → Prop
  | .taskmonSetPid _ pid kmalloc _ => d.run = true ∧ pid ≠ none ∧ kmalloc ≠ null
  | _ => True

instance (d : Driver) : (call : Ioctl) → Decidable (call.Fresh d)
  | .taskmonStart _ => inferInstanceAs (Decidable (_ ∧ _ ∧ _))
  | .taskmonSetPid _ _ _ _ => inferInstanceAs (Decidable (_ ∧ _ ∧ _ ∧ _))
  | .wrValue _ | .rdValue _ | .hello _ | .who _ | .getSample _ _ _ | .getSampleStruct _ _
  | .taskmonStop | .other => inferInstanceAs (Decidable True)

instance (d : Driver) : (call : Ioctl) → Decidable (call.KeepsThread d)
  | .taskmonSetPid _ _ _ _ => inferInstanceAs (Decidable (_ ∧ _ ∧ _))
  | .wrValue _ | .rdValue _ | .hello _ | .who _ | .getSample _ _ _ | .getSampleStruct _ _
  | .taskmonStop | .taskmonStart _ | .other => inferInstanceAs (Decidable True)

/-- The invariant behind `ThreadOk`: the only thread alive is the one `run` speaks of. -/
structure Driver.ThreadInv (d : Driver) : Prop where
  alive : d.alive = if d.run = true then {d.monitorThread} else ∅
  thread : d.monitorThread ≠ null
  tm : d.tm ≠ null
  stops : Fault.stopOfStopped ∉ d.faults

/-! ### What leaves the thread alone -/

/-- `d'` differs from `d` in nothing that concerns the thread. -/
structure SameThread (d d' : Driver) : Prop where
  alive : d'.alive = d.alive
  thread : d'.monitorThread = d.monitorThread
  run : d'.run = d.run
  stops : Fault.stopOfStopped ∈ d'.faults ↔ Fault.stopOfStopped ∈ d.faults

theorem SameThread.refl (d : Driver) : SameThread d d := ⟨rfl, rfl, rfl, Iff.rfl⟩

theorem SameThread.trans {d d' d'' : Driver} (h : SameThread d d') (h' : SameThread d' d'') :
    SameThread d d'' :=
  ⟨h'.alive.trans h.alive, h'.thread.trans h.thread, h'.run.trans h.run, h'.stops.trans h.stops⟩

theorem sameThread_fault (d : Driver) {f : Fault} (hf : f ≠ .stopOfStopped) :
    SameThread d (d.fault f) := by
  refine ⟨rfl, rfl, rfl, ?_⟩
  rw [Driver.fault, List.mem_cons]
  exact or_iff_right fun h => hf h.symm

theorem sameThread_readTm (d : Driver) : SameThread d d.readTm := by
  unfold Driver.readTm
  split_ifs
  · exact SameThread.refl d
  · exact sameThread_fault d (by simp)

theorem sameThread_putPid (d : Driver) : SameThread d d.putPid := by
  have hread := sameThread_readTm d
  unfold Driver.putPid
  dsimp only
  split_ifs
  · exact hread.trans (sameThread_fault _ (by simp))
  · exact hread.trans ⟨rfl, rfl, rfl, Iff.rfl⟩

theorem sameThread_kfree (d : Driver) : SameThread d d.kfree := by
  unfold Driver.kfree
  split_ifs
  · exact ⟨rfl, rfl, rfl, Iff.rfl⟩
  · exact sameThread_fault d (by simp)

theorem sameThread_store (d : Driver) (off : Nat) (bytes : List UInt8) :
    SameThread d (d.store off bytes) := by
  unfold Driver.store
  dsimp only
  split_ifs
  · exact ⟨rfl, rfl, rfl, Iff.rfl⟩
  · exact (sameThread_fault d (by simp)).trans ⟨rfl, rfl, rfl, Iff.rfl⟩

theorem sameThread_monitorPid (d : Driver) (pid : Option Pid) (kmalloc : Addr) :
    SameThread d (monitorPid d pid kmalloc).1 := by
  cases pid with
  | none => exact SameThread.refl d
  | some p =>
      by_cases hnull : kmalloc = null
      · simp only [monitorPid, if_pos hnull]
        refine ⟨rfl, rfl, rfl, ?_⟩
        simp [Driver.fault]
      · simp only [monitorPid, if_neg hnull]
        exact ⟨rfl, rfl, rfl, Iff.rfl⟩

/-- The ioctls that neither stop nor start the thread. -/
def Ioctl.Plain : Ioctl → Prop
  | .taskmonStop | .taskmonStart _ | .taskmonSetPid _ _ _ _ => False
  | _ => True

theorem sameThread_step (d : Driver) {call : Ioctl} (hcall : call.Plain) :
    SameThread d (step d call) ∧ (step d call).tm = d.tm := by
  have hread : d.readTm.tm = d.tm := by
    unfold Driver.readTm
    split_ifs <;> rfl
  have hstore : ∀ (d : Driver) off bytes, (d.store off bytes).tm = d.tm := by
    intro d off bytes
    unfold Driver.store
    dsimp only
    split_ifs <;> rfl
  cases call with
  | wrValue arg => exact ⟨⟨rfl, rfl, rfl, Iff.rfl⟩, rfl⟩
  | rdValue room => exact ⟨SameThread.refl d, rfl⟩
  | hello room => exact ⟨SameThread.refl d, rfl⟩
  | who arg => exact ⟨sameThread_store _ _ _, hstore _ _ _⟩
  | getSample task stack room =>
      unfold step etxIoctl
      dsimp only
      split_ifs
      · exact ⟨sameThread_fault d (by decide), rfl⟩
      · exact ⟨(sameThread_readTm d).trans (sameThread_store _ _ _), (hstore _ _ _).trans hread⟩
  | getSampleStruct task room =>
      unfold step etxIoctl
      dsimp only
      split_ifs
      · exact ⟨sameThread_fault d (by decide), rfl⟩
      · exact ⟨(sameThread_readTm d).trans ⟨rfl, rfl, rfl, Iff.rfl⟩, hread⟩
  | taskmonStop => exact absurd hcall not_false
  | taskmonStart thread => exact absurd hcall not_false
  | taskmonSetPid arg pid kmalloc thread => exact absurd hcall not_false
  | other => exact ⟨SameThread.refl d, rfl⟩

theorem step_taskmonStop (d : Driver) :
    step d .taskmonStop = if d.run = true then { d.kthreadStop with run := false } else d := by
  simp only [step, etxIoctl]
  split_ifs <;> rfl

theorem step_taskmonStart (d : Driver) (thread : Addr) :
    step d (.taskmonStart thread)
      = if d.run = true then d else { d.kthreadRun thread with run := true } := by
  simp only [step, etxIoctl]
  split_ifs <;> rfl

/-! ### `TASKMON_SET_PID` -/

/-- The first half of `TASKMON_SET_PID`, before it knows whether the pid exists. -/
def Driver.teardown (d : Driver) (arg : List UInt8) : Driver :=
  { d.kthreadStop.putPid.kfree with value := int32Of (copyFromUser arg 4).1 }

section SetPid

variable {d : Driver} (htm : d.tm ≠ null) (arg : List UInt8) (kmalloc thread : Addr)

include htm

theorem tm_kthreadStop_ne_null : d.kthreadStop.tm ≠ null := by
  unfold Driver.kthreadStop
  split_ifs <;> exact htm

theorem setPid_none :
    etxIoctl d (.taskmonSetPid arg none kmalloc thread)
      = ((d.teardown arg).putPid.kfree, some (((copyFromUser arg 4).2 : Int), [])) := by
  simp only [etxIoctl, if_neg (tm_kthreadStop_ne_null htm), monitorPid]
  rw [if_pos (by decide)]
  rfl

theorem setPid_some (p : Pid) :
    etxIoctl d (.taskmonSetPid arg (some p) kmalloc thread)
      = if kmalloc = null then ((monitorPid (d.teardown arg) (some p) kmalloc).1, none)
        else
          ({ (monitorPid (d.teardown arg) (some p) kmalloc).1 with
              target := (d.teardown arg).value.toUInt32.toUInt16 }.kthreadRun thread,
            some (((copyFromUser arg 4).2 : Int), [])) := by
  simp only [etxIoctl, if_neg (tm_kthreadStop_ne_null htm), monitorPid, Driver.teardown]
  generalize d.kthreadStop.putPid.kfree = d'
  by_cases hnull : kmalloc = null
  · simp only [if_pos hnull]
  · simp only [if_neg hnull, ne_eq, not_true_eq_false, if_false]

end SetPid

theorem sameThread_teardown (d : Driver) (arg : List UInt8) :
    SameThread d.kthreadStop (d.teardown arg) := by
  have hfreed : SameThread d.kthreadStop d.kthreadStop.putPid.kfree :=
    (sameThread_putPid _).trans (sameThread_kfree _)
  unfold Driver.teardown
  generalize d.kthreadStop.putPid.kfree = d' at hfreed ⊢
  exact ⟨hfreed.alive, hfreed.thread, hfreed.run, hfreed.stops⟩

theorem step_setPid {d : Driver} (htm : d.tm ≠ null) (arg : List UInt8) (pid : Option Pid)
    (kmalloc thread : Addr) :
    (pid ≠ none ∧ kmalloc ≠ null
        ∧ ∃ d', SameThread d.kthreadStop d' ∧ d'.tm = kmalloc
          ∧ step d (.taskmonSetPid arg pid kmalloc thread) = d'.kthreadRun thread)
      ∨ ((pid = none ∨ kmalloc = null)
        ∧ SameThread d.kthreadStop (step d (.taskmonSetPid arg pid kmalloc thread))) := by
  have htear := sameThread_teardown d arg
  cases pid with
  | none =>
      rw [step, setPid_none htm]
      dsimp only
      exact Or.inr ⟨Or.inl rfl, htear.trans ((sameThread_putPid _).trans (sameThread_kfree _))⟩
  | some p =>
      have hpid := htear.trans (sameThread_monitorPid _ (some p) kmalloc)
      rw [step, setPid_some htm]
      by_cases hnull : kmalloc = null
      · rw [if_pos hnull]
        exact Or.inr ⟨Or.inr hnull, hpid⟩
      · have htm' : (monitorPid (d.teardown arg) (some p) kmalloc).1.tm = kmalloc := by
          simp only [monitorPid, if_neg hnull]
        rw [if_neg hnull]
        dsimp only
        generalize (monitorPid (d.teardown arg) (some p) kmalloc).1 = d' at hpid htm' ⊢
        refine Or.inl ⟨by simp, hnull, _, ?_, ?_, rfl⟩
        · exact ⟨hpid.alive, hpid.thread, hpid.run, hpid.stops⟩
        · exact htm'

/-! ### The invariant -/

section Invariant

variable {d : Driver} (h : d.ThreadInv)

include h

theorem ThreadInv.threadOk : d.ThreadOk := by
  refine ⟨?_, ?_, h.stops⟩
  · rw [h.alive]
    split_ifs <;> simp
  · rw [h.alive]
    split_ifs with hrun <;> simp [hrun]

theorem ThreadInv.congr {d' : Driver} (hsame : SameThread d d') (htm : d'.tm ≠ null) :
    d'.ThreadInv := by
  refine ⟨?_, ?_, htm, fun hmem => h.stops (hsame.stops.mp hmem)⟩
  · rw [hsame.alive, hsame.run, hsame.thread, h.alive]
  · rw [hsame.thread]
    exact h.thread

theorem kthreadStop_of_run (hrun : d.run = true) : d.kthreadStop = { d with alive := ∅ } := by
  have halive := h.alive
  rw [if_pos hrun] at halive
  rw [Driver.kthreadStop, if_pos (by simp [halive]), halive, Finset.erase_singleton]

theorem kthreadStop_of_not_run (hrun : ¬ d.run = true) :
    d.kthreadStop = d.fault .stopOfStopped := by
  have halive := h.alive
  rw [if_neg hrun] at halive
  rw [Driver.kthreadStop, if_neg (by simp [halive])]

theorem ThreadInv.stop : (step d .taskmonStop).ThreadInv := by
  rw [step_taskmonStop]
  split_ifs with hrun
  · rw [kthreadStop_of_run h hrun]
    exact ⟨by simp, h.thread, h.tm, h.stops⟩
  · exact h

theorem ThreadInv.start {thread : Addr} (hnull : thread ≠ null) (herr : isErr thread = false) :
    (step d (.taskmonStart thread)).ThreadInv := by
  rw [step_taskmonStart]
  split_ifs with hrun
  · exact h
  · have halive := h.alive
    rw [if_neg hrun] at halive
    refine ⟨?_, hnull, h.tm, h.stops⟩
    simp [Driver.kthreadRun, herr, halive]

theorem setPid_of_run (arg : List UInt8) (pid : Option Pid) {kmalloc thread : Addr}
    (hrun : d.run = true) (hnull : thread ≠ null) (herr : isErr thread = false) :
    (pid ≠ none ∧ kmalloc ≠ null ∧ (step d (.taskmonSetPid arg pid kmalloc thread)).ThreadInv)
      ∨ ((pid = none ∨ kmalloc = null)
        ∧ ¬ (step d (.taskmonSetPid arg pid kmalloc thread)).ThreadOk) := by
  rcases step_setPid h.tm arg pid kmalloc thread with
    ⟨hpid, hkmalloc, d', hsame, htm, heq⟩ | ⟨hfail, hsame⟩
  · left
    rw [kthreadStop_of_run h hrun] at hsame
    rw [heq]
    refine ⟨hpid, hkmalloc, ?_, hnull, ?_, fun hmem => h.stops (hsame.stops.mp hmem)⟩
    · simp [Driver.kthreadRun, herr, hsame.alive, hsame.run, hrun]
    · simpa [Driver.kthreadRun, htm] using hkmalloc
  · right
    refine ⟨hfail, fun hok => ?_⟩
    -- the thread is stopped and `run` still set
    rw [kthreadStop_of_run h hrun] at hsame
    have hmem := hok.run.mp (hsame.run.trans hrun)
    rw [hsame.alive] at hmem
    exact absurd hmem (Finset.notMem_empty _)

theorem setPid_of_not_run (arg : List UInt8) (pid : Option Pid) (kmalloc thread : Addr)
    (hrun : ¬ d.run = true) : ¬ (step d (.taskmonSetPid arg pid kmalloc thread)).ThreadOk := by
  intro hok
  have hstopped : Fault.stopOfStopped ∈ d.kthreadStop.faults := by
    rw [kthreadStop_of_not_run h hrun]
    exact List.mem_cons_self ..
  rcases step_setPid h.tm arg pid kmalloc thread with ⟨-, -, d', hsame, -, heq⟩ | ⟨-, hsame⟩
  · apply hok.stops
    rw [heq]
    exact hsame.stops.mpr hstopped
  · exact hok.stops (hsame.stops.mpr hstopped)

theorem ThreadInv.step_iff {call : Ioctl} (hfresh : call.Fresh d) :
    ((step d call).ThreadOk ↔ call.KeepsThread d)
      ∧ (call.KeepsThread d → (step d call).ThreadInv) := by
  have hkeeps : (step d call).ThreadInv → call.KeepsThread d →
      ((step d call).ThreadOk ↔ call.KeepsThread d)
        ∧ (call.KeepsThread d → (step d call).ThreadInv) := by
    intro hinv hcond
    exact ⟨iff_of_true (ThreadInv.threadOk hinv) hcond, fun _ => hinv⟩
  have hother : call.Plain → call.KeepsThread d →
      ((step d call).ThreadOk ↔ call.KeepsThread d)
        ∧ (call.KeepsThread d → (step d call).ThreadInv) := by
    intro hplain hcond
    obtain ⟨hsame, htm⟩ := sameThread_step d hplain
    exact hkeeps (ThreadInv.congr h hsame (htm ▸ h.tm)) hcond
  cases call with
  | taskmonStop => exact hkeeps (ThreadInv.stop h) trivial
  | taskmonStart thread => exact hkeeps (ThreadInv.start h hfresh.2.1 hfresh.2.2) trivial
  | taskmonSetPid arg pid kmalloc thread =>
      obtain ⟨-, hnull, herr, -⟩ := hfresh
      by_cases hrun : d.run = true
      · rcases setPid_of_run h arg pid hrun hnull herr with ⟨hpid, hkmalloc, hinv⟩ | ⟨hfail, hnot⟩
        · exact hkeeps hinv ⟨hrun, hpid, hkmalloc⟩
        · have hcond : ¬ Ioctl.KeepsThread d (.taskmonSetPid arg pid kmalloc thread) := by
            rintro ⟨-, hpid, hkmalloc⟩
            exact hfail.elim hpid hkmalloc
          exact ⟨iff_of_false hnot hcond, fun hcond' => absurd hcond' hcond⟩
      · have hcond : ¬ Ioctl.KeepsThread d (.taskmonSetPid arg pid kmalloc thread) :=
          fun hcond => hrun hcond.1
        exact ⟨iff_of_false (setPid_of_not_run h arg pid kmalloc thread hrun) hcond,
          fun hcond' => absurd hcond' hcond⟩
  | wrValue arg => exact hother trivial trivial
  | rdValue room => exact hother trivial trivial
  | hello room => exact hother trivial trivial
  | who arg => exact hother trivial trivial
  | getSample task stack room => exact hother trivial trivial
  | getSampleStruct task room => exact hother trivial trivial
  | other => exact hother trivial trivial

theorem ThreadInv.exit : (monitorExit d).ThreadGone ↔ d.run = true := by
  have hrest : SameThread d.kthreadStop (monitorExit d) := by
    unfold monitorExit
    rw [if_pos h.thread]
    dsimp only
    rw [if_neg (tm_kthreadStop_ne_null h.tm)]
    exact (sameThread_putPid _).trans (sameThread_kfree _)
  by_cases hrun : d.run = true
  · rw [kthreadStop_of_run h hrun] at hrest
    exact iff_of_true ⟨hrest.alive, fun hmem => h.stops (hrest.stops.mp hmem)⟩ hrun
  · rw [kthreadStop_of_not_run h hrun] at hrest
    exact iff_of_false (fun hgone => hgone.stops (hrest.stops.mpr (List.mem_cons_self ..))) hrun

end Invariant

/-! ### Runs -/

theorem monitorInit_eq {d d₀ : Driver} {pid : Option Pid} {kmalloc thread : Addr}
    (hinit : monitorInit d pid kmalloc thread = (d₀, some 0)) :
    ∃ p, pid = some p ∧ kmalloc ≠ null ∧ isErr thread = false
      ∧ d₀ = { d with
          tm := kmalloc
          tms := insert kmalloc d.tms
          pidOf := Function.update d.pidOf kmalloc p
          pidRefs := Function.update d.pidRefs p (d.pidRefs p + 1)
          monitorThread := thread
          alive := insert thread d.alive
          run := true } := by
  cases pid with
  | none =>
      simp only [monitorInit, monitorPid] at hinit
      rw [if_pos (by decide), Prod.mk.injEq, Option.some.injEq] at hinit
      exact absurd hinit.2 (by decide)
  | some p =>
      by_cases hnull : kmalloc = null
      · simp [monitorInit, monitorPid, if_pos hnull] at hinit
      · cases herr : isErr thread with
        | false =>
            refine ⟨p, rfl, hnull, rfl, ?_⟩
            simp only [monitorInit, monitorPid, if_neg hnull, ne_eq, not_true_eq_false, if_false,
              herr, Bool.false_eq_true, Driver.kthreadRun, Prod.mk.injEq, and_true] at hinit
            exact hinit.symm
        | true =>
            simp only [monitorInit, monitorPid, if_neg hnull, ne_eq, not_true_eq_false, if_false,
              herr, if_true, Prod.mk.injEq, Option.some.injEq, ptrErr] at hinit
            simp only [isErr, decide_eq_true_eq] at herr
            have hptr := hinit.2
            omega

/-- **The thread is right after every call, and gone after the exit, exactly when every
`TASKMON_SET_PID` comes while it runs and finds its pid and memory, and the exit comes while it
runs.** -/
theorem threadsOk_iff {d d₀ : Driver} (hload : d.Loaded) {pid : Option Pid} {kmalloc thread : Addr}
    (hinit : monitorInit d pid kmalloc thread = (d₀, some 0)) (hthread : thread ≠ null)
    {calls : List Ioctl} (hfresh : StepsMeet step (fun d call => call.Fresh d) d₀ calls)
    (unload : Bool) :
    ThreadsOk d₀ calls unload ↔
      StepsMeet step (fun d call => call.KeepsThread d) d₀ calls
        ∧ (unload = true → (final step d₀ calls).run = true) := by
  obtain ⟨p, -, hkmalloc, -, hd₀⟩ := monitorInit_eq hinit
  have halive : d.alive = ∅ := by rw [hload.eq]
  have hfaults : d.faults = [] := by rw [hload.eq]
  have hinv : d₀.ThreadInv := by
    rw [hd₀]
    exact ⟨by simp [halive], hthread, hkmalloc, by simp [hfaults]⟩
  have hexact : ∀ (d : Driver) (call : Ioctl), d.ThreadInv → call.Fresh d →
      ((step d call).ThreadOk ↔ call.KeepsThread d) :=
    fun d call hd hcall => (ThreadInv.step_iff hd hcall).1
  have hkeep : ∀ (d : Driver) (call : Ioctl), d.ThreadInv → call.Fresh d → call.KeepsThread d →
      (step d call).ThreadInv := fun d call hd hcall => (ThreadInv.step_iff hd hcall).2
  rw [ThreadsOk, forall_states_iff_cond hexact hkeep (fun _ hd => ThreadInv.threadOk hd) hinv hfresh]
  refine and_congr_right fun hcalls => ?_
  have hfinal := final_of_inv hkeep hinv hfresh hcalls
  exact forall_congr' fun _ => ThreadInv.exit hfinal

def loadedModule : Driver :=
  { target := 1
    mem := ascii ['t', 'o', 't', 'o'] ++ [0] ++ ascii ['t', 'o', 't', 'o'] ++ [0]
    string := 0
    info := 5 }

def startedModule : Driver := (monitorInit loadedModule (some 1) 16 32).1

theorem loaded_loadedModule : loadedModule.Loaded := ⟨rfl, rfl, rfl⟩

theorem monitorInit_loadedModule :
    monitorInit loadedModule (some 1) 16 32 = (startedModule, some 0) := rfl

theorem threadsOk_stop_start_setPid :
    ThreadsOk startedModule
      [.taskmonStop, .taskmonStart 48, .taskmonSetPid [7, 0, 0, 0] (some 2) 64 80] true :=
  (threadsOk_iff loaded_loadedModule monitorInit_loadedModule (by decide) (by decide) true).mpr
    ⟨by decide, fun _ => by decide⟩

theorem not_threadsOk_stop_setPid :
    loadedModule.Loaded ∧ monitorInit loadedModule (some 1) 16 32 = (startedModule, some 0)
      ∧ StepsMeet step (fun d call => call.Fresh d) startedModule
          [.taskmonStop, .taskmonSetPid [7, 0, 0, 0] (some 2) 48 64]
      ∧ ¬ ThreadsOk startedModule [.taskmonStop, .taskmonSetPid [7, 0, 0, 0] (some 2) 48 64]
          false := by
  refine ⟨loaded_loadedModule, monitorInit_loadedModule, by decide, fun hok => ?_⟩
  exact absurd (by decide) (hok.1 _ final_mem_states).stops

end Pnl.TaskMonitorIoctl
