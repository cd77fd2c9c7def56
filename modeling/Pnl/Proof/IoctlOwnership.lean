import Pnl.Proof.IoctlThread

/-!
# The monitored process

`TASKMON_SET_PID` gives the old `task_monitor` and its pid reference back before it asks for the new
ones. When there is nothing new it gives the old ones back once more. The driver owns what `tm`
points to as long as that does not happen, whatever else is done with the thread.
-/

namespace Pnl.TaskMonitorIoctl

open Bytes Kthreads Runs TaskMonitor

/-- `tm` is allocated, its pid reference held once, and nothing was given back twice. -/
structure Driver.Owned (d : Driver) : Prop where
  allocated : d.tm ∈ d.tms
  held : d.pidRefs (d.pidOf d.tm) = 1
  frees : Fault.freeOfFreed ∉ d.faults
  puts : Fault.putOfUnheld ∉ d.faults

/-- What `TASKMON_SET_PID` owes a caller who names no process. -/
structure Refuses (d : Driver) (call : Ioctl) : Prop where
  result : ∃ res out, (etxIoctl d call).2 = some (res, out) ∧ res ≠ 0
  tm : (step d call).tm = d.tm
  pid : (step d call).pidOf d.tm = d.pidOf d.tm ∧ (step d call).pidRefs = d.pidRefs
  target : (step d call).target = d.target
  thread : (step d call).monitorThread = d.monitorThread ∧ (step d call).alive = d.alive

def Ioctl.RefusesNoPid (d : Driver) (call : Ioctl) : Prop :=
  match call with
  | .taskmonSetPid _ none _ _ => Refuses d call
  | _ => True

def OwnershipOk (d : Driver) (calls : List Ioctl) (unload : Bool) : Prop :=
  (∀ d' ∈ states step d calls, d'.Owned)
    ∧ StepsMeet step (fun d call => call.RefusesNoPid d) d calls
    ∧ (unload = true → Fault.freeOfFreed ∉ (monitorExit (final step d calls)).faults
        ∧ Fault.putOfUnheld ∉ (monitorExit (final step d calls)).faults)

def Ioctl.FindsPid : Ioctl → Prop
  | .taskmonSetPid _ pid kmalloc _ => pid ≠ none ∧ kmalloc ≠ null
  | _ => True

instance : (call : Ioctl) → Decidable call.FindsPid
  | .taskmonSetPid _ _ _ _ => inferInstanceAs (Decidable (_ ∧ _))
  | .wrValue _ | .rdValue _ | .hello _ | .who _ | .getSample _ _ _ | .getSampleStruct _ _
  | .taskmonStop | .taskmonStart _ | .other => inferInstanceAs (Decidable True)

/-- The invariant behind `Owned`: the driver owns one `task_monitor` and its reference, and nothing
else. -/
structure Driver.OwnInv (d : Driver) : Prop where
  tm : d.tm ≠ null
  tms : d.tms = {d.tm}
  pidRefs : d.pidRefs = fun p => if p = d.pidOf d.tm then 1 else 0
  frees : Fault.freeOfFreed ∉ d.faults
  puts : Fault.putOfUnheld ∉ d.faults

/-! ### What leaves the process alone -/

/-- `d'` differs from `d` in nothing that concerns the monitored process. -/
structure SameTm (d d' : Driver) : Prop where
  tm : d'.tm = d.tm
  tms : d'.tms = d.tms
  pidOf : d'.pidOf = d.pidOf
  pidRefs : d'.pidRefs = d.pidRefs
  frees : Fault.freeOfFreed ∈ d'.faults ↔ Fault.freeOfFreed ∈ d.faults
  puts : Fault.putOfUnheld ∈ d'.faults ↔ Fault.putOfUnheld ∈ d.faults

theorem SameTm.refl (d : Driver) : SameTm d d := ⟨rfl, rfl, rfl, rfl, Iff.rfl, Iff.rfl⟩

theorem SameTm.trans {d d' d'' : Driver} (h : SameTm d d') (h' : SameTm d' d'') : SameTm d d'' :=
  ⟨h'.tm.trans h.tm, h'.tms.trans h.tms, h'.pidOf.trans h.pidOf, h'.pidRefs.trans h.pidRefs,
    h'.frees.trans h.frees, h'.puts.trans h.puts⟩

theorem sameTm_fault (d : Driver) {f : Fault} (hfree : f ≠ .freeOfFreed) (hput : f ≠ .putOfUnheld) :
    SameTm d (d.fault f) := by
  refine ⟨rfl, rfl, rfl, rfl, ?_, ?_⟩
  · rw [Driver.fault, List.mem_cons]
    exact or_iff_right fun h => hfree h.symm
  · rw [Driver.fault, List.mem_cons]
    exact or_iff_right fun h => hput h.symm

theorem sameTm_readTm (d : Driver) : SameTm d d.readTm := by
  unfold Driver.readTm
  split_ifs
  · exact SameTm.refl d
  · exact sameTm_fault d (by decide) (by decide)

theorem sameTm_store (d : Driver) (off : Nat) (bytes : List UInt8) :
    SameTm d (d.store off bytes) := by
  unfold Driver.store
  dsimp only
  split_ifs
  · exact ⟨rfl, rfl, rfl, rfl, Iff.rfl, Iff.rfl⟩
  · have hfault := sameTm_fault d (f := .strayStore) (by decide) (by decide)
    exact ⟨rfl, rfl, rfl, rfl, hfault.frees, hfault.puts⟩

theorem sameTm_kthreadStop (d : Driver) : SameTm d d.kthreadStop := by
  unfold Driver.kthreadStop
  split_ifs
  · exact ⟨rfl, rfl, rfl, rfl, Iff.rfl, Iff.rfl⟩
  · exact sameTm_fault d (by decide) (by decide)

theorem sameTm_step (d : Driver) {call : Ioctl}
    (hcall : ∀ arg pid kmalloc thread, call ≠ .taskmonSetPid arg pid kmalloc thread) :
    SameTm d (step d call) := by
  cases call with
  | wrValue arg => exact ⟨rfl, rfl, rfl, rfl, Iff.rfl, Iff.rfl⟩
  | rdValue room => exact SameTm.refl d
  | hello room => exact SameTm.refl d
  | who arg => exact sameTm_store _ _ _
  | getSample task stack room =>
      unfold step etxIoctl
      dsimp only
      split_ifs
      · exact sameTm_fault d (by decide) (by decide)
      · exact (sameTm_readTm d).trans (sameTm_store _ _ _)
  | getSampleStruct task room =>
      unfold step etxIoctl
      dsimp only
      split_ifs
      · exact sameTm_fault d (by decide) (by decide)
      · exact (sameTm_readTm d).trans ⟨rfl, rfl, rfl, rfl, Iff.rfl, Iff.rfl⟩
  | taskmonStop =>
      rw [step_taskmonStop]
      split_ifs
      · exact (sameTm_kthreadStop d).trans ⟨rfl, rfl, rfl, rfl, Iff.rfl, Iff.rfl⟩
      · exact SameTm.refl d
  | taskmonStart thread =>
      rw [step_taskmonStart]
      split_ifs
      · exact SameTm.refl d
      · exact ⟨rfl, rfl, rfl, rfl, Iff.rfl, Iff.rfl⟩
  | taskmonSetPid arg pid kmalloc thread => exact absurd rfl (hcall arg pid kmalloc thread)
  | other => exact SameTm.refl d

/-! ### The invariant -/

section Invariant

variable {d : Driver} (h : d.OwnInv)

include h

theorem OwnInv.owned : d.Owned := by
  refine ⟨?_, ?_, h.frees, h.puts⟩
  · rw [h.tms]
    exact Finset.mem_singleton_self _
  · rw [h.pidRefs]
    exact if_pos rfl

theorem OwnInv.congr {d' : Driver} (hsame : SameTm d d') : d'.OwnInv := by
  refine ⟨?_, ?_, ?_, fun hmem => h.frees (hsame.frees.mp hmem),
    fun hmem => h.puts (hsame.puts.mp hmem)⟩
  · rw [hsame.tm]
    exact h.tm
  · rw [hsame.tms, hsame.tm]
    exact h.tms
  · rw [hsame.pidRefs, hsame.pidOf, hsame.tm]
    exact h.pidRefs

theorem putPid_kfree : d.putPid.kfree = { d with tms := ∅, pidRefs := fun _ => 0 } := by
  have hmem : d.tm ∈ d.tms := (OwnInv.owned h).allocated
  have hread : d.readTm = d := if_pos hmem
  have hheld : d.pidRefs (d.pidOf d.tm) = 1 := (OwnInv.owned h).held
  have hput : d.putPid = { d with pidRefs := fun _ => 0 } := by
    unfold Driver.putPid
    rw [hread]
    dsimp only
    rw [if_neg (by omega)]
    congr 1
    funext p
    by_cases hp : p = d.pidOf d.tm
    · subst hp
      rw [Function.update_self, hheld]
    · rw [Function.update_of_ne hp, h.pidRefs]
      exact if_neg hp
  rw [hput, Driver.kfree, if_pos hmem]
  dsimp only
  rw [h.tms, Finset.erase_singleton]

theorem teardown_eq (arg : List UInt8) :
    d.teardown arg = { d.kthreadStop with
      tms := ∅
      pidRefs := fun _ => 0
      value := int32Of (copyFromUser arg 4).1 } := by
  rw [Driver.teardown, putPid_kfree (OwnInv.congr h (sameTm_kthreadStop d))]

theorem OwnInv.setPid (arg : List UInt8) (p : Pid) {kmalloc : Addr} (thread : Addr)
    (hkmalloc : kmalloc ≠ null) :
    (step d (.taskmonSetPid arg (some p) kmalloc thread)).OwnInv := by
  have hstop := OwnInv.congr h (sameTm_kthreadStop d)
  rw [step, setPid_some h.tm, if_neg hkmalloc, teardown_eq h]
  generalize d.kthreadStop = d' at hstop
  simp only [monitorPid, if_neg hkmalloc, Driver.kthreadRun]
  refine ⟨hkmalloc, by simp, ?_, hstop.frees, hstop.puts⟩
  funext q
  by_cases hq : q = p <;> simp [hq]

theorem not_owned_setPid_null (arg : List UInt8) (p : Pid) (thread : Addr) :
    ¬ (step d (.taskmonSetPid arg (some p) null thread)).Owned := by
  intro howned
  have hmem := howned.allocated
  rw [step, setPid_some h.tm, if_pos rfl, teardown_eq h] at hmem
  simp [monitorPid, Driver.fault] at hmem

/-- `TASKMON_SET_PID` without a pid gives `tm` back twice. -/
theorem not_owned_setPid_none (arg : List UInt8) (kmalloc thread : Addr) :
    ¬ (step d (.taskmonSetPid arg none kmalloc thread)).Owned := by
  intro howned
  apply howned.frees
  rw [step, setPid_none h.tm, teardown_eq h]
  dsimp only
  generalize d.kthreadStop = d'
  simp [Driver.putPid, Driver.readTm, Driver.fault, Driver.kfree]

theorem OwnInv.step_iff (call : Ioctl) :
    ((step d call).Owned ∧ call.RefusesNoPid d ↔ call.FindsPid)
      ∧ (call.FindsPid → (step d call).OwnInv) := by
  have hkeeps : (step d call).OwnInv → call.RefusesNoPid d → call.FindsPid →
      ((step d call).Owned ∧ call.RefusesNoPid d ↔ call.FindsPid)
        ∧ (call.FindsPid → (step d call).OwnInv) := by
    intro hinv hrefuses hcond
    exact ⟨iff_of_true ⟨OwnInv.owned hinv, hrefuses⟩ hcond, fun _ => hinv⟩
  have hother : (∀ arg pid kmalloc thread, call ≠ .taskmonSetPid arg pid kmalloc thread) →
      (step d call).OwnInv := fun hcall => OwnInv.congr h (sameTm_step d hcall)
  cases call with
  | taskmonSetPid arg pid kmalloc thread =>
      cases pid with
      | none =>
          exact ⟨iff_of_false (fun hok => not_owned_setPid_none h arg kmalloc thread hok.1)
            (fun hcond => hcond.1 rfl), fun hcond => absurd rfl hcond.1⟩
      | some p =>
          by_cases hnull : kmalloc = null
          · subst hnull
            exact ⟨iff_of_false (fun hok => not_owned_setPid_null h arg p thread hok.1)
              (fun hcond => hcond.2 rfl), fun hcond => absurd rfl hcond.2⟩
          · exact hkeeps (OwnInv.setPid h arg p thread hnull) trivial ⟨by simp, hnull⟩
  | wrValue arg => exact hkeeps (hother (by simp)) trivial trivial
  | rdValue room => exact hkeeps (hother (by simp)) trivial trivial
  | hello room => exact hkeeps (hother (by simp)) trivial trivial
  | who arg => exact hkeeps (hother (by simp)) trivial trivial
  | getSample task stack room => exact hkeeps (hother (by simp)) trivial trivial
  | getSampleStruct task room => exact hkeeps (hother (by simp)) trivial trivial
  | taskmonStop => exact hkeeps (hother (by simp)) trivial trivial
  | taskmonStart thread => exact hkeeps (hother (by simp)) trivial trivial
  | other => exact hkeeps (hother (by simp)) trivial trivial

theorem OwnInv.exit :
    Fault.freeOfFreed ∉ (monitorExit d).faults ∧ Fault.putOfUnheld ∉ (monitorExit d).faults := by
  have hstop : (if d.monitorThread ≠ null then d.kthreadStop else d).OwnInv := by
    split_ifs
    · exact OwnInv.congr h (sameTm_kthreadStop d)
    · exact h
  unfold monitorExit
  dsimp only
  rw [if_neg hstop.tm, putPid_kfree hstop]
  exact ⟨hstop.frees, hstop.puts⟩

end Invariant

/-! ### Runs -/

/-- **The driver owns its `task_monitor` after every call, and gives it back once, exactly when every
`TASKMON_SET_PID` finds its pid and memory.** -/
theorem ownershipOk_iff {d d₀ : Driver} (hload : d.Loaded) {pid : Option Pid}
    {kmalloc thread : Addr} (hinit : monitorInit d pid kmalloc thread = (d₀, some 0))
    (calls : List Ioctl) (unload : Bool) :
    OwnershipOk d₀ calls unload ↔ StepsMeet step (fun _ call => call.FindsPid) d₀ calls := by
  obtain ⟨p, -, hkmalloc, -, hd₀⟩ := monitorInit_eq hinit
  have hinv : d₀.OwnInv := by
    rw [hd₀]
    have htms : d.tms = ∅ := by rw [hload.eq]
    have hrefs : d.pidRefs = fun _ => 0 := by rw [hload.eq]
    have hfaults : d.faults = [] := by rw [hload.eq]
    refine ⟨hkmalloc, by simp [htms], ?_, by simp [hfaults], by simp [hfaults]⟩
    funext q
    by_cases hq : q = p <;> simp [hrefs, hq]
  have hkeep : ∀ (d : Driver) (call : Ioctl), d.OwnInv → call.FindsPid → (step d call).OwnInv :=
    fun d call hd => (OwnInv.step_iff hd call).2
  have henv : StepsMeet step (fun _ _ => True) d₀ calls := stepsMeet_of_forall fun _ _ => trivial
  have hsteps : StepsMeet step (fun d call => (step d call).Owned ∧ call.RefusesNoPid d) d₀ calls
      ↔ StepsMeet step (fun _ call => call.FindsPid) d₀ calls :=
    stepsMeet_iff (fun d call hd _ => (OwnInv.step_iff hd call).1)
      (fun d call hd _ => hkeep d call hd) hinv henv
  rw [OwnershipOk, forall_states_iff, ← hsteps, stepsMeet_and]
  constructor
  · rintro ⟨⟨-, howned⟩, hrefuses, -⟩
    exact ⟨howned, hrefuses⟩
  · rintro ⟨howned, hrefuses⟩
    have hfinal := invariant hkeep hinv (hsteps.mp (stepsMeet_and.mpr ⟨howned, hrefuses⟩)) _
      final_mem_states
    exact ⟨⟨OwnInv.owned hinv, howned⟩, hrefuses, fun _ => OwnInv.exit hfinal⟩

theorem ownershipOk_setPid_twice :
    OwnershipOk startedModule
      [.taskmonSetPid [7, 0, 0, 0] (some 2) 64 80, .taskmonSetPid [9, 0, 0, 0] (some 3) 96 112] true :=
  (ownershipOk_iff loaded_loadedModule monitorInit_loadedModule _ true).mpr (by decide)

theorem not_ownershipOk_setPid_noPid :
    loadedModule.Loaded ∧ monitorInit loadedModule (some 1) 16 32 = (startedModule, some 0)
      ∧ ¬ OwnershipOk startedModule [.taskmonSetPid [7, 0, 0, 0] none 64 80] false := by
  refine ⟨loaded_loadedModule, monitorInit_loadedModule, fun hok => ?_⟩
  exact absurd (by decide) (hok.1 _ final_mem_states).frees

end Pnl.TaskMonitorIoctl
