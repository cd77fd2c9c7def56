import Pnl.Lib.Loops
import Pnl.Proof.TaskMonitor2Lifetime

/-!
# What the contents of a slab object decide

`save_sample` keeps the object it gets whether or not `get_sample` filled it in, so a sample taken
while the target is dead holds what the cache left there, and both files show it. Texts are compared
between two runs that differ in these contents only.
-/

namespace Pnl.TaskMonitor2

open Bytes Krefs Runs

/-! ### The text of a show -/

/-- The samples in the order in which they are shown, with the number of their monitor's pid. -/
def State.entries (s : State) (ms : List Addr) : List (Int32 × Times) :=
  ms.flatMap fun m => (s.head m).reverse.map fun t => (s.pid m, s.times t)

theorem entries_cons (s : State) (m : Addr) (ms : List Addr) :
    s.entries (m :: ms)
      = ((s.head m).reverse.map fun t => (s.pid m, s.times t)) ++ s.entries ms :=
  List.flatMap_cons

theorem entries_append (s : State) (ms ms' : List Addr) :
    s.entries (ms ++ ms') = s.entries ms ++ s.entries ms' :=
  List.flatMap_append

/-- The lines of the entries, numbered from `i` on. -/
def listing (line : Int32 → Int32 → Times → List UInt8) : (i : Int32) → List (Int32 × Times) →
    List UInt8
  | _, [] => []
  | i, (pid, times) :: entries => line pid i times ++ listing line (i + 1) entries

theorem listing_append (line : Int32 → Int32 → Times → List UInt8) (i : Int32)
    (xs ys : List (Int32 × Times)) :
    listing line i (xs ++ ys) = listing line i xs ++ listing line (i + Int32.ofNat xs.length) ys := by
  induction xs generalizing i with
  | nil =>
      rw [List.nil_append, listing, List.nil_append, List.length_nil]
      exact congrArg (listing line · ys) (Int32.add_zero i).symm
  | cons x xs ih =>
      rw [List.cons_append, listing, ih, listing, List.append_assoc, Loops.count_cons]

/-- What `debugfs_task_monitor_show` has written after some more entries. -/
def Output.listed (out : Output) (entries : List (Int32 × Times)) : Output :=
  { out with
    buf := out.buf ++ listing debugfsLine out.i entries
    i := out.i + Int32.ofNat entries.length }

theorem Output.listed_nil (out : Output) : out.listed [] = out := by
  obtain ⟨buf, count, i⟩ := out
  simp [Output.listed, listing]

theorem Output.listed_append (out : Output) (xs ys : List (Int32 × Times)) :
    out.listed (xs ++ ys) = (out.listed xs).listed ys := by
  simp only [Output.listed, listing_append, List.append_assoc, List.length_append, Int32.ofNat_add,
    Int32.add_assoc]

/-- **A show is one pass over the entries**, and leaves the module as it was. -/
theorem Referenced.showMonitors_all {emit : Emit} {s : State} (h : Referenced s) {ms : List Addr}
    (hms : ms ⊆ s.tasks) {out out' : Output} (hall : emit.all (s.entries ms) out = some out') :
    showMonitors emit s ms out = (s, out', false) := by
  induction ms generalizing out with
  | nil =>
      obtain rfl : out = out' := Option.some.inj hall
      rfl
  | cons m ms ih =>
      rw [entries_cons, Emit.all_append] at hall
      obtain ⟨next, hsamples, hrest⟩ := Option.bind_eq_some_iff.mp hall
      rw [(h.showMonitors_cons (hms List.mem_cons_self) hsamples).2]
      exact ih (fun x hx => hms (List.mem_cons_of_mem m hx)) hrest

theorem debugfsEmit_all (entries : List (Int32 × Times)) (out : Output) :
    Emit.all debugfsEmit entries out = some (out.listed entries) := by
  induction entries generalizing out with
  | nil => rw [out.listed_nil, Emit.all]
  | cons entry entries ih =>
      obtain ⟨pid, times⟩ := entry
      have hemitted : debugfsEmit pid times out = some (out.listed [(pid, times)]) := by
        rw [debugfsEmit, Output.listed, listing, listing, List.append_nil]
        rfl
      rw [Emit.all, hemitted, Option.bind_some, ih, ← Output.listed_append]
      rfl

/-- **The text of `debugfs_task_monitor_show`** is a line for each sample, in the order of the
monitors and from the newest sample of each on. -/
theorem Accounted.debugfs_text {s : State} (h : Accounted s) :
    (debugfsTaskMonitorShow s).2 = listing debugfsLine 0 (s.entries s.tasks) := by
  rw [debugfsTaskMonitorShow,
    h.referenced.showMonitors_all (List.Subset.refl _) (debugfsEmit_all (s.entries s.tasks) _)]
  exact List.nil_append _

/-! ### One sample more -/

section Saved

variable {s : State} (h : Accounted s) {tm ts : Addr} (hfresh : ts ∉ s.samples.live)

include h hfresh

theorem entries_saved_of_not_mem {ms : List Addr} (hms : ms ⊆ s.tasks) (htm : tm ∉ ms)
    (times : Times) : (s.saved tm ts times).entries ms = s.entries ms := by
  apply List.flatMap_congr
  intro m hm
  have hne : m ≠ tm := fun heq => htm (heq ▸ hm)
  rw [saved_head_of_ne s hne]
  apply List.map_congr_left
  intro t ht
  have hts : t ≠ ts := fun heq => hfresh (heq ▸ h.samples m (hms hm) t (List.mem_reverse.mp ht))
  exact congrArg (Prod.mk _) (Function.update_of_ne hts _ _)

theorem entries_saved_self (htm : tm ∈ s.tasks) (times : Times) :
    ((s.saved tm ts times).head tm).reverse.map
        (fun t => ((s.saved tm ts times).pid tm, (s.saved tm ts times).times t))
      = (s.pid tm, times) :: (s.head tm).reverse.map fun t => (s.pid tm, s.times t) := by
  have hself : (s.saved tm ts times).times ts = times := Function.update_self _ _ _
  rw [saved_head_self, List.reverse_append, List.reverse_singleton, List.singleton_append,
    List.map_cons, hself]
  apply congrArg (List.cons _)
  apply List.map_congr_left
  intro t ht
  have hts : t ≠ ts := fun heq => hfresh (heq ▸ h.samples tm htm t (List.mem_reverse.mp ht))
  exact congrArg (Prod.mk _) (Function.update_of_ne hts _ _)

/-- A saved sample is one entry, and the others do not depend on it. -/
theorem entries_saved (htm : tm ∈ s.tasks) :
    ∃ before after, ∀ times, (s.saved tm ts times).entries (s.saved tm ts times).tasks
      = before ++ (s.pid tm, times) :: after := by
  obtain ⟨ms, ms', htasks⟩ := List.append_of_mem htm
  have hnodup := htasks ▸ h.tasks_nodup
  rw [List.nodup_middle, List.nodup_cons, List.mem_append, not_or] at hnodup
  obtain ⟨⟨hbefore, hafter⟩, -⟩ := hnodup
  refine ⟨s.entries ms, ((s.head tm).reverse.map fun t => (s.pid tm, s.times t)) ++ s.entries ms',
    fun times => ?_⟩
  have hsame : (s.saved tm ts times).tasks = ms ++ tm :: ms' := htasks
  have hms : ms ⊆ s.tasks := fun m hm => by
    rw [htasks]
    exact List.mem_append_left _ hm
  have hms' : ms' ⊆ s.tasks := fun m hm => by
    rw [htasks]
    exact List.mem_append_right _ (List.mem_cons_of_mem tm hm)
  rw [hsame, entries_append, entries_cons, entries_saved_self h hfresh htm,
    entries_saved_of_not_mem h hfresh hms hbefore, entries_saved_of_not_mem h hfresh hms' hafter,
    List.cons_append]

/-- **Two contents with different lines are told apart.** -/
theorem debugfs_text_saved_ne (htm : tm ∈ s.tasks) {times times' : Times}
    (hline : ∀ pid i, debugfsLine pid i times ≠ debugfsLine pid i times') :
    (debugfsTaskMonitorShow (s.saved tm ts times)).2
      ≠ (debugfsTaskMonitorShow (s.saved tm ts times')).2 := by
  obtain ⟨before, after, hentries⟩ := entries_saved h hfresh htm
  have htext : ∀ times, (debugfsTaskMonitorShow (s.saved tm ts times)).2
      = listing debugfsLine 0 (before ++ (s.pid tm, times) :: after) := by
    intro times
    rw [(h.saved htm hfresh times).debugfs_text, hentries]
  rw [htext, htext, listing_append, listing_append, listing, listing]
  intro heq
  exact hline _ _ (List.append_cancel_right (List.append_cancel_left heq))

end Saved

theorem exists_debugfsLine_ne (times : Times) :
    ∃ times', ∀ pid i, debugfsLine pid i times ≠ debugfsLine pid i times' := by
  -- the lines differ in length, since the other number has one digit more or fewer
  have hlength : ∀ utime : UInt64, (decimal utime.toNat).length ≠ (decimal times.utime.toNat).length →
      ∀ pid i, debugfsLine pid i times ≠ debugfsLine pid i { times with utime := utime } := by
    intro utime hne pid i heq
    have hsame := congrArg List.length heq
    simp only [debugfsLine, List.length_append] at hsame
    omega
  by_cases hone : (decimal times.utime.toNat).length = 1
  · refine ⟨_, hlength 10 ?_⟩
    rw [hone]
    decide
  · refine ⟨_, hlength 0 fun hzero => hone ?_⟩
    rw [← hzero]
    decide

/-! ### Two runs -/

/-- The same call, up to what the object of `kmem_cache_alloc` holds. -/
inductive SameRequest : Call → Call → Prop
  | same (call : Call) : SameRequest call call
  | saveSample (tm ts : Addr) (contents contents' : Times) (task : Option Task) :
      SameRequest (.saveSample tm (some (ts, contents)) task)
        (.saveSample tm (some (ts, contents')) task)

/-- Both files show the same. -/
def SameTexts (s s' : State) : Prop :=
  (∀ buf : List UInt8, buf.length = pageSize → (sysfsShow s buf).2 = (sysfsShow s' buf).2)
    ∧ (debugfsTaskMonitorShow s).2 = (debugfsTaskMonitorShow s').2

/-- A sample that is kept has its times from a live task. -/
def Call.ReadsTimes : Call → Prop
  | .saveSample _ (some _) task => ∃ task' ∈ task, task'.alive = true
  | _ => True

theorem getSample_of_alive {task : Option Task} (halive : ∃ task' ∈ task, task'.alive = true)
    (contents contents' : Times) : (getSample task contents).1 = (getSample task contents').1 := by
  obtain ⟨task', hmem, halive⟩ := halive
  rw [hmem, getSample, getSample, if_pos halive, if_pos halive]

theorem getSample_of_not_alive {task : Option Task} (hdead : ¬ ∃ task' ∈ task, task'.alive = true)
    (contents : Times) : (getSample task contents).1 = contents := by
  cases task with
  | none => rfl
  | some task' => exact if_neg fun halive => hdead ⟨task', rfl, halive⟩

theorem Accounted.step_sameRequest {s : State} (h : Accounted s) {call call' : Call}
    (hallowed : call.Allowed s) (hreads : call.ReadsTimes) (hsame : SameRequest call call') :
    step s call = step s call' := by
  cases hsame with
  | same => rfl
  | saveSample tm ts contents contents' task =>
      rw [step, step, h.toAllocated.saveSample_eq hallowed.1, h.toAllocated.saveSample_eq hallowed.1,
        getSample_of_alive hreads contents contents']

theorem Accounted.readsTimes_of_sameTexts {s : State} (h : Accounted s) {call : Call}
    (hallowed : call.Allowed s)
    (hseen : ∀ call', SameRequest call call' → SameTexts (step s call) (step s call')) :
    call.ReadsTimes := by
  cases call with
  | saveSample tm alloc task =>
      cases alloc with
      | none => trivial
      | some object =>
          obtain ⟨ts, contents⟩ := object
          by_contra hdead
          obtain ⟨htm, hfresh⟩ := hallowed
          obtain ⟨contents', hline⟩ := exists_debugfsLine_ne contents
          have htexts := (hseen _ (.saveSample tm ts contents contents' task)).2
          rw [step, step, h.toAllocated.saveSample_eq htm, h.toAllocated.saveSample_eq htm,
            getSample_of_not_alive hdead, getSample_of_not_alive hdead] at htexts
          exact debugfs_text_saved_ne h (hfresh _ rfl) htm hline htexts
  | _ => trivial

/-- **The files show no uninitialised memory exactly when no sample is taken of a dead target.** -/
theorem texts_determined_iff {s : State} (hload : Loaded s) {calls : List Call}
    (hallowed : StepsMeet step Call.Allowed s calls) :
    Determined step SameRequest SameTexts s calls ↔ ∀ call ∈ calls, call.ReadsTimes := by
  have hconst : StepsMeet step (fun _ call => call.ReadsTimes) s calls
      ↔ ∀ call ∈ calls, call.ReadsTimes := stepsMeet_const_iff
  rw [← hconst]
  exact determined_iff SameRequest.same (fun s => ⟨fun _ _ => rfl, rfl⟩)
    (fun s call h hcall _ => accounted_step s call h hcall)
    (fun s call call' h hcall hreads hsame => h.step_sameRequest hcall hreads hsame)
    (fun s call h hcall hseen => h.readsTimes_of_sameTexts hcall hseen)
    hload.fresh.accounted hallowed

instance Call.decidableReadsTimes : (call : Call) → Decidable call.ReadsTimes
  | .saveSample _ (some _) task => inferInstanceAs (Decidable (∃ task' ∈ task, task'.alive = true))
  | .saveSample _ none _ => inferInstanceAs (Decidable True)
  | .myShrinkScan _ => inferInstanceAs (Decidable True)
  | .myShrinkCount => inferInstanceAs (Decidable True)
  | .sysfsShow _ => inferInstanceAs (Decidable True)
  | .debugfsTaskMonitorShow => inferInstanceAs (Decidable True)

def aliveTask : Task where
  alive := true
  cputime := { utime := 7, stime := 8 }

def aliveCalls : List Call :=
  [.saveSample 0x1000 (some (0x2000, { utime := 0, stime := 0 })) (some aliveTask),
    .debugfsTaskMonitorShow, .myShrinkScan 0x80, .saveSample 0x1000 none none]

theorem texts_determined_aliveCalls :
    Determined step SameRequest SameTexts State.loaded aliveCalls :=
  (texts_determined_iff loaded_loaded (by decide)).mpr (by decide)

def deadCall (times : Times) : Call := .saveSample 0x1000 (some (0x2000, times)) none

theorem not_texts_determined_deadCall :
    Loaded State.loaded
      ∧ StepsMeet step Call.Allowed State.loaded [deadCall { utime := 0, stime := 0 }]
      ∧ ¬ Determined step SameRequest SameTexts State.loaded
        [deadCall { utime := 0, stime := 0 }] := by
  refine ⟨loaded_loaded, by decide, fun hsame => ?_⟩
  have hrequest : SameRequest (deadCall { utime := 0, stime := 0 })
      (deadCall { utime := 42, stime := 0 }) := .saveSample _ _ _ _ _
  have htexts := (hsame _ (List.Forall₂.cons hrequest List.Forall₂.nil) 1).2
  exact absurd htexts (by decide)

end Pnl.TaskMonitor2
