import Mathlib.Data.List.TakeWhile
import Mathlib.Data.UInt
import Pnl.Lib.Runs
import Pnl.Proof.TaskMonitor2Effects

/-!
# Complete calls

What each call of the module does when it runs alone: `my_shrink_scan` drops every sample,
`save_sample` adds one, and the others leave the module as they find it. The shows return from the
middle of their loops only with a full page, which `scnprintf` never makes.
-/

namespace Pnl.TaskMonitor2

open Bytes Krefs

/-- One reference on each monitor and each sample, and every link right: no call is under way. -/
structure Accounted (s : State) : Prop extends Counted (fun _ => 1) (fun _ => 1) s where
  linked : s.Linked

theorem Allocated.withMonitors {s : State} (h : Allocated s) (m : Addr) :
    Allocated (s.withMonitors (s.monitors.getUnlessZero m).1) := by
  refine ⟨fun m' hm' => ?_, h.samples⟩
  rw [State.withMonitors, getUnlessZero_live]
  exact h.monitors m' hm'

/-! ### The shrinker -/

theorem Counted.mref_ne_zero {mref tref : Addr → Int32} {s : State} (h : Counted mref tref s)
    (href : ∀ m, mref m ≠ 0) {m : Addr} (hm : m ∈ s.tasks) : s.monitors.refs m ≠ 0 := by
  rw [h.mref m hm]
  exact href m

theorem Counted.scanMonitors_eq {mref tref : Addr → Int32} {s : State} (h : Counted mref tref s)
    (href : ∀ m, mref m ≠ 0) {ms : List Addr} (hms : ms ⊆ s.tasks) (hnodup : ms.Nodup)
    (res : UInt64) :
    scanMonitors s ms res
      = (s.unrefAll (ms.flatMap s.head), res + UInt64.ofNat (ms.flatMap s.head).length) := by
  induction ms generalizing s tref res with
  | nil => exact congrArg (Prod.mk s) (UInt64.add_zero res).symm
  | cons m ms ih =>
      obtain ⟨hnotin, hnodup⟩ := List.nodup_cons.mp hnodup
      have hm : m ∈ s.tasks := hms (by simp)
      have hmsrest : ms ⊆ s.tasks := fun x hx => hms (by simp [hx])
      have hlive : m ∈ s.monitors.live := h.monitors m hm
      have hne : s.monitors.refs m ≠ 0 := h.mref_ne_zero href hm
      have hsamples := (h.toAllocated.withMonitors m).scanSamples_eq (m := m) hm
        (List.Subset.refl _) (h.head_nodup m hm) res
      rw [unrefAll_withMonitors] at hsamples
      have hput := krefPutMonitor_withMonitors (s := s.unrefAll (s.head m)) (m := m)
        (by rwa [unrefAll_monitors]) (by rwa [unrefAll_monitors])
      rw [unrefAll_monitors] at hput
      have hrest : ms.flatMap (s.unrefAll (s.head m)).head = ms.flatMap s.head :=
        List.flatMap_congr fun m' hm' => h.head_unrefAll_of_ne hm (hmsrest hm')
          fun hmm => hnotin (hmm ▸ hm')
      obtain ⟨tref', hcounted⟩ := h.unrefAll (h.samples m hm) (h.head_nodup m hm)
      rw [scanMonitors]
      simp only [h.touchMonitor_eq hm, krefGetMonitor_eq hlive hne, if_true]
      rw [hsamples]
      simp only [State.withMonitors] at hput ⊢
      rw [hput, ih hcounted (by rwa [unrefAll_tasks]) hnodup, hrest,
        ← unrefAll_append, List.flatMap_cons, List.length_append, UInt64.ofNat_add,
        UInt64.add_assoc]

/-- **A scan that may run drops one reference of every listed sample**, whoever has it. -/
theorem Counted.myShrinkScan_unref {mref tref : Addr → Int32} {s : State} (h : Counted mref tref s)
    (href : ∀ m, mref m ≠ 0) {gfpMask : UInt32} (hmask : gfpMask &&& gfpFs ≠ 0) :
    myShrinkScan s gfpMask = (s.unrefAll s.listed, UInt64.ofNat s.listed.length) := by
  rw [myShrinkScan, if_neg hmask, h.scanMonitors_eq href (List.Subset.refl _) h.tasks_nodup,
    UInt64.zero_add, State.listed]

/-- Where the lists have the only references, the samples go. -/
theorem Counted.myShrinkScan_eq {mref : Addr → Int32} {s : State}
    (h : Counted mref (fun _ => 1) s) (href : ∀ m, mref m ≠ 0) {gfpMask : UInt32}
    (hmask : gfpMask &&& gfpFs ≠ 0) :
    myShrinkScan s gfpMask = (s.droppedAll s.listed, UInt64.ofNat s.listed.length) := by
  rw [h.myShrinkScan_unref href hmask, unrefAll_eq_droppedAll h.listed_nodup]
  exact fun t ht => h.tref t (h.mem_listed_iff.mp ht)

theorem myShrinkScan_of_mask {s : State} {gfpMask : UInt32} (hmask : gfpMask &&& gfpFs = 0) :
    myShrinkScan s gfpMask = (s, shrinkStop) := by
  rw [myShrinkScan, if_pos hmask]

theorem Counted.myShrinkScan {mref : Addr → Int32} {s : State}
    (h : Counted mref (fun _ => 1) s) (href : ∀ m, mref m ≠ 0) (gfpMask : UInt32) :
    Counted mref (fun _ => 1) (myShrinkScan s gfpMask).1 := by
  by_cases hmask : gfpMask &&& gfpFs = 0
  · rw [myShrinkScan_of_mask hmask]
    exact h
  · rw [h.myShrinkScan_eq href hmask]
    exact h.droppedAll (fun t ht => h.mem_listed_iff.mp ht) h.listed_nodup

theorem Counted.countMonitors_eq {mref tref : Addr → Int32} {s : State}
    (h : Counted mref tref s) (href : ∀ m, mref m ≠ 0) {ms : List Addr} (hms : ms ⊆ s.tasks)
    (res : UInt64) :
    countMonitors s ms res
      = (s, res + (ms.map fun m => (s.nbSamples m).toInt64.toUInt64).sum) := by
  induction ms generalizing res with
  | nil => exact congrArg (Prod.mk s) (UInt64.add_zero res).symm
  | cons m ms ih =>
      have hm : m ∈ s.tasks := hms (by simp)
      have hlive : m ∈ s.monitors.live := h.monitors m hm
      have hne : s.monitors.refs m ≠ 0 := h.mref_ne_zero href hm
      rw [countMonitors]
      simp only [krefGetMonitor_eq hlive hne, if_true]
      rw [krefPutMonitor_withMonitors hlive hne, h.touchMonitor_eq hm,
        ih fun x hx => hms (by simp [hx]), List.map_cons, List.sum_cons, UInt64.add_assoc]
      rfl

theorem Counted.myShrinkCount_eq {mref tref : Addr → Int32} {s : State}
    (h : Counted mref tref s) (href : ∀ m, mref m ≠ 0) :
    myShrinkCount s = (s, (s.tasks.map fun m => (s.nbSamples m).toInt64.toUInt64).sum) := by
  rw [myShrinkCount, h.countMonitors_eq href (List.Subset.refl _), UInt64.zero_add]

/-! ### Sampling -/

theorem Allocated.saveSample_eq {s : State} (h : Allocated s) {tm : Addr} (htm : tm ∈ s.tasks)
    (ts : Addr) (contents : Times) (task : Option Task) :
    saveSample s tm (some (ts, contents)) task
      = (s.saved tm ts (getSample task contents).1, ts) := by
  set p : Pool Addr := { s.samples with
    live := insert ts s.samples.live, refs := Function.update s.samples.refs ts 1 } with hp
  have hinit : (s.samples.alloc ts).init ts = p := by
    rw [Pool.alloc, init_of_mem (Finset.mem_insert_self _ _)]
  have hlive : ts ∈ p.live := Finset.mem_insert_self _ _
  have hone : p.refs ts = 1 := Function.update_self _ _ _
  have hne : p.refs ts ≠ 0 := by
    rw [hone]
    decide
  -- the state while `save_sample` holds its own reference
  have hheld : ∀ times : Addr → Times, Allocated
      { s with samples := (p.getUnlessZero ts).1, times := times } := by
    intro times
    refine ⟨h.monitors, fun m hm t ht => ?_⟩
    rw [getUnlessZero_live]
    exact Finset.mem_insert_of_mem (h.samples m hm t ht)
  have hlive' : ts ∈ (p.getUnlessZero ts).1.live := by rwa [getUnlessZero_live]
  rw [saveSample]
  simp only [hinit]
  rw [krefGetSample_eq hlive hne]
  simp only [if_true]
  rw [(hheld _).touchMonitor_eq htm, State.touchSample, touch_of_mem hlive']
  dsimp only
  rw [(hheld _).listAddTailSample_eq htm hlive', State.krefPutSample]
  dsimp only
  rw [put_getUnlessZero hlive hne]
  simp only [Function.update_self, Function.update_idem]
  rw [if_neg Bool.false_ne_true, hp, State.saved]

theorem Counted.saveSample {mref tref : Addr → Int32} {s : State} (h : Counted mref tref s)
    {tm : Addr} (htm : tm ∈ s.tasks) {alloc : Option (Addr × Times)}
    (hfresh : ∀ ts contents, alloc = some (ts, contents) → ts ∉ s.samples.live ∧ tref ts = 1)
    (task : Option Task) : Counted mref tref (saveSample s tm alloc task).1 := by
  cases alloc with
  | none => exact h
  | some object =>
      obtain ⟨ts, contents⟩ := object
      obtain ⟨hts, hone⟩ := hfresh ts contents rfl
      rw [h.toAllocated.saveSample_eq htm]
      exact h.saved htm hts hone _

/-! ### Showing the samples -/

/-- The body of a show loop never returns from the function when the output satisfies `P`. -/
def Emit.Keeps (emit : Emit) (P : Output → Prop) : Prop :=
  ∀ pid times out, P out → ∃ out', emit pid times out = some out' ∧ P out'

def Output.Fits (out : Output) : Prop := out.buf.length = pageSize ∧ out.count < pageSize

theorem strlen_lt_of_mem {buf : List UInt8} (h : 0 ∈ buf) : strlen buf < buf.length := by
  refine lt_of_le_of_ne (List.takeWhile_prefix _).length_le fun hlength => ?_
  have hall : buf.takeWhile (· ≠ 0) = buf :=
    (List.takeWhile_prefix _).eq_of_length hlength
  rw [← hall] at h
  have hzero := List.mem_takeWhile_imp h
  simp at hzero

theorem scnprintf_length {buf : List UInt8} {off size : Nat} (h : off + size ≤ buf.length)
    (text : List UInt8) : (scnprintf buf off size text).length = buf.length := by
  rw [scnprintf]
  split_ifs with hsize
  · simp
  · simp only [List.length_append, List.length_take, List.length_drop, List.length_singleton]
    omega

theorem zero_mem_scnprintf (buf : List UInt8) (off : Nat) {size : Nat} (hsize : 0 < size)
    (text : List UInt8) : 0 ∈ scnprintf buf off size text := by
  rw [scnprintf, if_neg hsize.ne']
  simp

theorem sysfsEmit_keeps : sysfsEmit.Keeps Output.Fits := by
  intro pid times out ⟨hlength, hcount⟩
  have hroom : out.count + (pageSize - out.count) ≤ out.buf.length := by omega
  refine ⟨_, by rw [sysfsEmit, if_neg hcount.ne], ?_⟩
  set text := sysfsLine pid out.i times
  have hwritten := scnprintf_length hroom text
  refine ⟨hwritten.trans hlength, ?_⟩
  have hzero := strlen_lt_of_mem
    (zero_mem_scnprintf out.buf out.count (Nat.sub_pos_of_lt hcount) text)
  rwa [hwritten, hlength] at hzero

theorem debugfsEmit_keeps : debugfsEmit.Keeps fun _ => True :=
  fun _ _ _ _ => ⟨_, rfl, trivial⟩

theorem showSamples_cons {emit : Emit} {s : State} {t : Addr} (ht : t ∈ s.samples.live)
    (hne : s.samples.refs t ≠ 0) (hlink : t ∉ s.bent) {pid : Int32} {out out' : Output}
    (hemitted : emit pid (s.times t) out = some out') (ts : List Addr) :
    showSamples emit pid s (t :: ts) out = showSamples emit pid s ts out' := by
  have hput := krefPutSample_krefGetSample ht hne
  have htouch : s.touchSample t = s := by rw [State.touchSample, touch_of_mem ht]
  rw [krefGetSample_eq ht hne] at hput
  rw [showSamples, krefGetSample_eq ht hne]
  dsimp only at hput ⊢
  rw [if_pos rfl, hemitted]
  dsimp only
  rw [hput, htouch, followPrev_of_notMem hlink]

/-- What a show function does with a sequence of entries, each a pid and the times of a sample. -/
def Emit.all (emit : Emit) : List (Int32 × Times) → Output → Option Output
  | [], out => some out
  | (pid, times) :: entries, out => (emit pid times out).bind (emit.all entries)

theorem Emit.all_append (emit : Emit) (xs ys : List (Int32 × Times)) (out : Output) :
    emit.all (xs ++ ys) out = (emit.all xs out).bind (emit.all ys) := by
  induction xs generalizing out with
  | nil => rfl
  | cons x xs ih =>
      rw [List.cons_append, Emit.all, Emit.all, Option.bind_assoc]
      exact congrArg _ (funext ih)

theorem Emit.Keeps.all {emit : Emit} {P : Output → Prop} (hemit : emit.Keeps P)
    (entries : List (Int32 × Times)) {out : Output} (hout : P out) :
    ∃ out', emit.all entries out = some out' ∧ P out' := by
  induction entries generalizing out with
  | nil => exact ⟨out, rfl, hout⟩
  | cons entry entries ih =>
      obtain ⟨next, hemitted, hnext⟩ := hemit entry.1 entry.2 out hout
      rw [Emit.all, hemitted, Option.bind_some]
      exact ih hnext

theorem showSamples_all {emit : Emit} {s : State} {pid : Int32} {ts : List Addr}
    (hlive : ∀ t ∈ ts, t ∈ s.samples.live) (href : ∀ t ∈ ts, s.samples.refs t ≠ 0)
    (hlink : ∀ t ∈ ts, t ∉ s.bent) {out out' : Output}
    (hall : emit.all (ts.map fun t => (pid, s.times t)) out = some out') :
    showSamples emit pid s ts out = (s, out', false) := by
  induction ts generalizing out with
  | nil =>
      obtain rfl : out = out' := Option.some.inj hall
      rfl
  | cons t ts ih =>
      obtain ⟨next, hemitted, hrest⟩ := Option.bind_eq_some_iff.mp hall
      rw [showSamples_cons (hlive t List.mem_cons_self) (href t List.mem_cons_self)
        (hlink t List.mem_cons_self) hemitted]
      exact ih (fun x hx => hlive x (List.mem_cons_of_mem t hx))
        (fun x hx => href x (List.mem_cons_of_mem t hx))
        (fun x hx => hlink x (List.mem_cons_of_mem t hx)) hrest

/-- The listed monitors and samples are allocated, none has lost its last reference, and the links
of the samples are right. -/
structure Referenced (s : State) : Prop extends Allocated s where
  mref : ∀ m ∈ s.tasks, s.monitors.refs m ≠ 0
  tref : ∀ m ∈ s.tasks, ∀ t ∈ s.head m, s.samples.refs t ≠ 0
  linked : s.Linked

theorem Counted.referenced {mref tref : Addr → Int32} {s : State} (h : Counted mref tref s)
    (hmref : ∀ m, mref m ≠ 0) (htref : ∀ t, tref t ≠ 0) (hlinked : s.Linked) : Referenced s where
  toAllocated := h.toAllocated
  mref _ hm := h.mref_ne_zero hmref hm
  tref m hm t ht := by
    rw [h.tref t (h.samples m hm t ht)]
    exact htref t
  linked := hlinked

theorem refs_one_ne_zero : ∀ _ : Addr, (1 : Int32) ≠ 0 := fun _ => by decide

theorem Accounted.referenced {s : State} (h : Accounted s) : Referenced s :=
  h.toCounted.referenced refs_one_ne_zero refs_one_ne_zero h.linked

/-- The references a show takes on a monitor and its samples are dropped before the next monitor. -/
theorem Referenced.showMonitors_cons {emit : Emit} {s : State} (h : Referenced s) {m : Addr}
    (hm : m ∈ s.tasks) {out out' : Output}
    (hall : emit.all ((s.head m).reverse.map fun t => (s.pid m, s.times t)) out = some out') :
    showSamples emit (s.pid m) (s.withMonitors (s.monitors.getUnlessZero m).1)
        (s.head m).reverse out = (s.withMonitors (s.monitors.getUnlessZero m).1, out', false)
      ∧ ∀ ms, showMonitors emit s (m :: ms) out = showMonitors emit s ms out' := by
  have hlive := h.monitors m hm
  have href := h.mref m hm
  have hshown := showSamples_all (s := s.withMonitors (s.monitors.getUnlessZero m).1)
    (fun t ht => h.samples m hm t (List.mem_reverse.mp ht))
    (fun t ht => h.tref m hm t (List.mem_reverse.mp ht))
    (fun t ht => h.linked m hm t (List.mem_reverse.mp ht)) hall
  refine ⟨hshown, fun ms => ?_⟩
  have hput := krefPutMonitor_withMonitors hlive href
  rw [showMonitors, krefGetMonitor_eq hlive href]
  dsimp only
  rw [if_pos rfl]
  simp only [State.withMonitors] at hshown hput ⊢
  rw [hshown]
  dsimp only
  rw [hput, h.touchMonitor_eq hm]

theorem Referenced.showMonitors_next {emit : Emit} {P : Output → Prop} (hemit : emit.Keeps P)
    {s : State} (h : Referenced s) {m : Addr} (hm : m ∈ s.tasks) {out : Output} (hout : P out) :
    ∃ out', showSamples emit (s.pid m) (s.withMonitors (s.monitors.getUnlessZero m).1)
        (s.head m).reverse out = (s.withMonitors (s.monitors.getUnlessZero m).1, out', false)
      ∧ P out' ∧ ∀ ms, showMonitors emit s (m :: ms) out = showMonitors emit s ms out' := by
  obtain ⟨out', hall, hout'⟩ :=
    hemit.all ((s.head m).reverse.map fun t => (s.pid m, s.times t)) hout
  obtain ⟨hsamples, hrest⟩ := h.showMonitors_cons hm hall
  exact ⟨out', hsamples, hout', hrest⟩

/-- **A show leaves the module as it was** and gets to the end of its loops. -/
theorem Referenced.showMonitors_state {emit : Emit} {P : Output → Prop} (hemit : emit.Keeps P)
    {s : State} (h : Referenced s) {ms : List Addr} (hms : ms ⊆ s.tasks) {out : Output}
    (hout : P out) :
    ∃ out', showMonitors emit s ms out = (s, out', false) ∧ P out' := by
  induction ms generalizing out with
  | nil => exact ⟨out, rfl, hout⟩
  | cons m ms ih =>
      obtain ⟨out', -, hout', hshown⟩ :=
        h.showMonitors_next hemit (hms List.mem_cons_self) hout
      rw [hshown]
      exact ih (fun x hx => hms (by simp [hx])) hout'

theorem Referenced.sysfsShow_state {s : State} (h : Referenced s) {buf : List UInt8}
    (hbuf : buf.length = pageSize) : (sysfsShow s buf).1 = s := by
  have hfits : Output.Fits { buf := buf } := ⟨hbuf, Nat.succ_pos 4095⟩
  obtain ⟨out, hshown, _⟩ :=
    h.showMonitors_state sysfsEmit_keeps (List.Subset.refl _) hfits
  rw [sysfsShow, hshown]

theorem Referenced.debugfsTaskMonitorShow_state {s : State} (h : Referenced s) :
    (debugfsTaskMonitorShow s).1 = s := by
  have hstart : (fun _ => True) (Output.mk [] 0 0) := trivial
  obtain ⟨out, hshown, _⟩ :=
    h.showMonitors_state debugfsEmit_keeps (List.Subset.refl _) hstart
  rw [debugfsTaskMonitorShow, hshown]

/-! ### Runs -/

/-- What a call may count on: the sampled monitor is listed, the cache returns an object that is not
allocated, and sysfs gives a page to write to. -/
def Call.Allowed (s : State) : Call → Prop
  | .saveSample tm alloc _ => tm ∈ s.tasks ∧ ∀ object ∈ alloc, object.1 ∉ s.samples.live
  | .sysfsShow buf => buf.length = pageSize
  | _ => True

instance (s : State) : (call : Call) → Decidable (call.Allowed s)
  | .saveSample tm alloc _ =>
      inferInstanceAs (Decidable (tm ∈ s.tasks ∧ ∀ object ∈ alloc, object.1 ∉ s.samples.live))
  | .sysfsShow buf => inferInstanceAs (Decidable (buf.length = pageSize))
  | .myShrinkScan _ => inferInstanceAs (Decidable True)
  | .myShrinkCount => inferInstanceAs (Decidable True)
  | .debugfsTaskMonitorShow => inferInstanceAs (Decidable True)

theorem Accounted.saved {s : State} (h : Accounted s) {tm ts : Addr} (htm : tm ∈ s.tasks)
    (hfresh : ts ∉ s.samples.live) (times : Times) : Accounted (s.saved tm ts times) where
  toCounted := h.toCounted.saved htm hfresh rfl times
  linked := h.linked.saved tm ts times

/-- No sample is left whose link could be wrong. -/
theorem Accounted.scanned {s : State} (h : Accounted s) : Accounted (s.droppedAll s.listed) where
  toCounted := h.toCounted.droppedAll (fun _ ht => h.mem_listed_iff.mp ht) h.listed_nodup
  linked := linked_droppedAll_listed s

inductive Effect (s : State) : Call → State → Prop
  | outOfMemory (tm : Addr) (task : Option Task) : Effect s (.saveSample tm none task) s
  | saved {tm ts : Addr} (contents : Times) (task : Option Task) (htm : tm ∈ s.tasks)
      (hfresh : ts ∉ s.samples.live) :
      Effect s (.saveSample tm (some (ts, contents)) task)
        (s.saved tm ts (getSample task contents).1)
  | refused {gfpMask : UInt32} (hmask : gfpMask &&& gfpFs = 0) : Effect s (.myShrinkScan gfpMask) s
  | scanned {gfpMask : UInt32} (hmask : gfpMask &&& gfpFs ≠ 0) :
      Effect s (.myShrinkScan gfpMask) (s.droppedAll s.listed)
  | counted : Effect s .myShrinkCount s
  | sysfsShown (buf : List UInt8) : Effect s (.sysfsShow buf) s
  | debugfsShown : Effect s .debugfsTaskMonitorShow s

theorem Accounted.effect {s : State} (h : Accounted s) {call : Call} (hallowed : call.Allowed s) :
    Effect s call (step s call) := by
  cases call with
  | saveSample tm alloc task =>
      obtain ⟨htm, hfresh⟩ := hallowed
      cases alloc with
      | none => exact .outOfMemory tm task
      | some object =>
          rw [step, h.toAllocated.saveSample_eq htm]
          exact .saved object.2 task htm (hfresh object rfl)
  | myShrinkScan gfpMask =>
      by_cases hmask : gfpMask &&& gfpFs = 0
      · rw [step, myShrinkScan_of_mask hmask]
        exact .refused hmask
      · rw [step, h.myShrinkScan_eq refs_one_ne_zero hmask]
        exact .scanned hmask
  | myShrinkCount =>
      rw [step, h.myShrinkCount_eq refs_one_ne_zero]
      exact .counted
  | sysfsShow buf =>
      rw [step, h.referenced.sysfsShow_state hallowed]
      exact .sysfsShown buf
  | debugfsTaskMonitorShow =>
      rw [step, h.referenced.debugfsTaskMonitorShow_state]
      exact .debugfsShown

/-- **A complete call keeps the references and the lists in order.** -/
theorem accounted_step (s : State) (call : Call) (h : Accounted s) (hallowed : call.Allowed s) :
    Accounted (step s call) := by
  have heffect := h.effect hallowed
  generalize step s call = s' at heffect ⊢
  cases heffect with
  | saved contents task htm hfresh => exact h.saved htm hfresh _
  | scanned hmask => exact h.scanned
  | _ => exact h

end Pnl.TaskMonitor2
