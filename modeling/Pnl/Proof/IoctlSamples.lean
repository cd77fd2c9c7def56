import Pnl.Proof.IoctlOwnership
import Pnl.Proof.IoctlStrings

/-!
# The two samples

`GET_SAMPLE` samples into a variable on the stack and delivers a text, `GET_SAMPLE_STRUCT` samples
into a global and delivers its bytes. Neither looks at what `get_sample` returned, so they deliver
the same sample as long as there is one to take; of a dead process one delivers what the stack held
and the other what was sampled last.
-/

namespace Pnl.TaskMonitorIoctl

open Bytes Kthreads Runs TaskMonitor

def sampleBytes (ts : TaskSample) : List UInt8 :=
  leBytes 8 ts.utime.toNat ++ leBytes 8 ts.stime.toNat

def IsAlive (task : Option Task) : Prop := ∃ task' ∈ task, task'.alive = true

instance IsAlive.decidable (task : Option Task) : Decidable (IsAlive task) :=
  inferInstanceAs (Decidable (∃ task' ∈ task, task'.alive = true))

/-- The same ioctl, up to what its stack holds. -/
inductive SameRequest : Ioctl → Ioctl → Prop
  | same (call : Ioctl) : SameRequest call call
  | getSample (task : Option Task) (stack stack' : TaskSample) (room : Nat) :
      SameRequest (.getSample task stack room) (.getSample task stack' room)

/-- The two ioctls, one right after the other, deliver `ts` as a text and as a struct, as far as
there is room for each, and neither reads a freed `task_monitor`. -/
structure Delivers (d : Driver) (task : Option Task) (stack : TaskSample) (room room' : Nat)
    (ts : TaskSample) : Prop where
  text : ∃ res, (etxIoctl d (.getSample task stack room)).2 = some (res, (sampleText ts).take room)
  struct : ∃ res, (etxIoctl (step d (.getSample task stack room)) (.getSampleStruct task room')).2
    = some (res, (sampleBytes ts).take room')
  reads : (step (step d (.getSample task stack room)) (.getSampleStruct task room')).faults.count
    .readOfFreed = d.faults.count .readOfFreed

/-- After `calls` the two ioctls deliver one and the same pair, whatever the stack holds then and
whatever it held in the calls before; and nothing but a non-zero result when the task is dead. -/
structure SamplesAgree (d₀ : Driver) (calls : List Ioctl) (task : Option Task) (room room' : Nat) :
    Prop where
  pair : ∃ ts, ∀ calls', List.Forall₂ SameRequest calls calls' → ∀ stack,
    Delivers (final step d₀ calls') task stack room room' ts
  dead : ¬ IsAlive task → ∀ stack,
    (∃ res, res ≠ 0
      ∧ (etxIoctl (final step d₀ calls) (.getSample task stack room)).2 = some (res, []))
    ∧ ∃ res, res ≠ 0
      ∧ (etxIoctl (step (final step d₀ calls) (.getSample task stack room))
          (.getSampleStruct task room')).2 = some (res, [])

/-! ### What the stack can reach -/

def Driver.withMem (d : Driver) (mem : List UInt8) (faults : List Fault) : Driver :=
  { d with mem := mem, faults := faults }

/-- What `op` does to the rest of the driver does not depend on the memory around the strings. -/
def Blind (op : Driver → Driver) : Prop :=
  ∀ d mem faults, ∃ mem' faults', op (d.withMem mem faults) = (op d).withMem mem' faults'

theorem Blind.comp {op op' : Driver → Driver} (h : Blind op) (h' : Blind op') :
    Blind fun d => op' (op d) := by
  intro d mem faults
  obtain ⟨mem₁, faults₁, heq⟩ := h d mem faults
  dsimp only
  rw [heq]
  exact h' (op d) mem₁ faults₁

theorem Blind.ite {c : Driver → Prop} [DecidablePred c] {op op' : Driver → Driver}
    (hc : ∀ d mem faults, c (d.withMem mem faults) ↔ c d) (h : Blind op) (h' : Blind op') :
    Blind fun d => if c d then op d else op' d := by
  intro d mem faults
  dsimp only
  by_cases hd : c d
  · rw [if_pos hd, if_pos ((hc d mem faults).mpr hd)]
    exact h d mem faults
  · rw [if_neg hd, if_neg ((hc d mem faults).not.mpr hd)]
    exact h' d mem faults

theorem blind_id : Blind fun d => d := fun _ mem faults => ⟨mem, faults, rfl⟩

theorem blind_fault (f : Fault) : Blind fun d => d.fault f :=
  fun _ mem faults => ⟨mem, f :: faults, rfl⟩

theorem blind_readTm : Blind Driver.readTm := by
  unfold Driver.readTm
  exact Blind.ite (fun _ _ _ => Iff.rfl) blind_id (blind_fault .readOfFreed)

theorem blind_kthreadStop : Blind Driver.kthreadStop := by
  unfold Driver.kthreadStop
  exact Blind.ite (fun _ _ _ => Iff.rfl) (fun _ mem faults => ⟨mem, faults, rfl⟩)
    (blind_fault .stopOfStopped)

theorem blind_kfree : Blind Driver.kfree := by
  unfold Driver.kfree
  exact Blind.ite (fun _ _ _ => Iff.rfl) (fun _ mem faults => ⟨mem, faults, rfl⟩)
    (blind_fault .freeOfFreed)

theorem blind_putPid : Blind Driver.putPid := by
  have hput : Blind fun d => if d.pidRefs (d.pidOf d.tm) = 0 then d.fault .putOfUnheld
      else { d with pidRefs :=
        Function.update d.pidRefs (d.pidOf d.tm) (d.pidRefs (d.pidOf d.tm) - 1) } :=
    Blind.ite (fun _ _ _ => Iff.rfl) (blind_fault .putOfUnheld)
      (fun _ mem faults => ⟨mem, faults, rfl⟩)
  exact blind_readTm.comp hput

theorem blind_monitorPid (pid : Option Pid) (kmalloc : Addr) :
    Blind fun d => (monitorPid d pid kmalloc).1 := by
  intro d mem faults
  cases pid with
  | none => exact ⟨mem, faults, rfl⟩
  | some p =>
      by_cases h : kmalloc = null
      · refine ⟨mem, .nullDeref :: faults, ?_⟩
        simp only [monitorPid, if_pos h]
        rfl
      · refine ⟨mem, faults, ?_⟩
        simp only [monitorPid, if_neg h]
        rfl

theorem blind_teardown (arg : List UInt8) : Blind fun d => d.teardown arg := by
  have hfreed : Blind fun d => d.kthreadStop.putPid.kfree :=
    blind_kthreadStop.comp (blind_putPid.comp blind_kfree)
  intro d mem faults
  obtain ⟨mem', faults', heq⟩ := hfreed d mem faults
  refine ⟨mem', faults', ?_⟩
  dsimp only at heq ⊢
  rw [Driver.teardown, Driver.teardown, heq]
  rfl

theorem blind_setPid (arg : List UInt8) (pid : Option Pid) (kmalloc thread : Addr) :
    Blind fun d => step d (.taskmonSetPid arg pid kmalloc thread) := by
  intro d mem faults
  by_cases htm : d.tm = null
  · obtain ⟨mem', faults', heq⟩ := blind_kthreadStop d mem faults
    have hnull : d.kthreadStop.tm = null := (tm_kthreadStop d).trans htm
    have hnull' : (d.kthreadStop.withMem mem' faults').tm = null := hnull
    refine ⟨mem', .nullDeref :: faults', ?_⟩
    simp only [step, etxIoctl, heq, if_pos hnull, if_pos hnull']
    rfl
  · have htm' : (d.withMem mem faults).tm ≠ null := htm
    cases pid with
    | none =>
        obtain ⟨mem', faults', heq⟩ :=
          ((blind_teardown arg).comp (blind_putPid.comp blind_kfree)) d mem faults
        refine ⟨mem', faults', ?_⟩
        dsimp only at heq ⊢
        rw [step, step, setPid_none htm, setPid_none htm']
        dsimp only
        exact heq
    | some p =>
        obtain ⟨mem', faults', heq⟩ :=
          ((blind_teardown arg).comp (blind_monitorPid (some p) kmalloc)) d mem faults
        refine ⟨mem', faults', ?_⟩
        dsimp only at heq ⊢
        rw [step, step, setPid_some htm, setPid_some htm']
        split_ifs
        · exact heq
        · dsimp only
          rw [heq]
          rfl

theorem store_withMem (d : Driver) (off : Nat) (bytes : List UInt8) :
    ∃ mem faults, d.store off bytes = d.withMem mem faults := by
  unfold Driver.store
  dsimp only
  split_ifs
  · exact ⟨_, d.faults, rfl⟩
  · exact ⟨_, .strayStore :: d.faults, rfl⟩

/-- Two stores that may differ in place and contents leave the same rest of the driver. -/
theorem stores_withMem (d : Driver) (mem : List UInt8) (faults : List Fault) (off off' : Nat)
    (bytes bytes' : List UInt8) : ∃ mem' faults',
      (d.withMem mem faults).store off' bytes' = (d.store off bytes).withMem mem' faults' := by
  obtain ⟨mem₁, faults₁, heq⟩ := store_withMem d off bytes
  obtain ⟨mem', faults', heq'⟩ := store_withMem (d.withMem mem faults) off' bytes'
  refine ⟨mem', faults', ?_⟩
  rw [heq, heq']
  rfl

theorem withMem_getSample (d : Driver) (mem : List UInt8) (faults : List Fault) (task : Option Task)
    (stack stack' : TaskSample) (room : Nat) :
    ∃ mem' faults', step (d.withMem mem faults) (.getSample task stack' room)
      = (step d (.getSample task stack room)).withMem mem' faults' := by
  by_cases htm : d.tm = null
  · have htm' : (d.withMem mem faults).tm = null := htm
    refine ⟨mem, .nullDeref :: faults, ?_⟩
    simp only [step, etxIoctl, if_pos htm, if_pos htm']
    rfl
  · have htm' : (d.withMem mem faults).tm ≠ null := htm
    obtain ⟨mem₁, faults₁, hread⟩ := blind_readTm d mem faults
    rw [step_getSample htm, step_getSample htm', hread]
    exact stores_withMem d.readTm mem₁ faults₁ _ _ _ _

theorem blind_getSampleStruct (task : Option Task) (room : Nat) :
    Blind fun d => step d (.getSampleStruct task room) := by
  intro d mem faults
  dsimp only
  by_cases htm : d.tm = null
  · have htm' : (d.withMem mem faults).tm = null := htm
    refine ⟨mem, .nullDeref :: faults, ?_⟩
    simp only [step, etxIoctl, if_pos htm, if_pos htm']
    rfl
  · have htm' : (d.withMem mem faults).tm ≠ null := htm
    obtain ⟨mem₁, faults₁, hread⟩ := blind_readTm d mem faults
    refine ⟨mem₁, faults₁, ?_⟩
    simp only [step, etxIoctl, if_neg htm, if_neg htm', hread]
    rfl

theorem blind_taskmonStop : Blind fun d => step d .taskmonStop := by
  have hclear : Blind fun d => { d with run := false } := fun _ mem faults => ⟨mem, faults, rfl⟩
  simp only [step_taskmonStop]
  exact Blind.ite (fun _ _ _ => Iff.rfl) (blind_kthreadStop.comp hclear) blind_id

theorem blind_taskmonStart (thread : Addr) : Blind fun d => step d (.taskmonStart thread) := by
  simp only [step_taskmonStart]
  exact Blind.ite (fun _ _ _ => Iff.rfl) blind_id fun _ mem faults => ⟨mem, faults, rfl⟩

theorem withMem_step (d : Driver) (mem : List UInt8) (faults : List Fault) {call call' : Ioctl}
    (h : SameRequest call call') :
    ∃ mem' faults', step (d.withMem mem faults) call' = (step d call).withMem mem' faults' := by
  cases h with
  | getSample task stack stack' room => exact withMem_getSample d mem faults task stack stack' room
  | same =>
      cases call with
      | wrValue arg => exact ⟨mem, faults, rfl⟩
      | rdValue room => exact ⟨mem, faults, rfl⟩
      | hello room => exact ⟨mem, faults, rfl⟩
      | who arg => exact stores_withMem d mem faults _ _ _ _
      | getSample task stack room => exact withMem_getSample d mem faults task stack stack room
      | getSampleStruct task room => exact blind_getSampleStruct task room d mem faults
      | taskmonStop => exact blind_taskmonStop d mem faults
      | taskmonStart thread => exact blind_taskmonStart thread d mem faults
      | taskmonSetPid arg pid kmalloc thread => exact blind_setPid arg pid kmalloc thread d mem faults
      | other => exact ⟨mem, faults, rfl⟩

/-- **What the stack held in earlier calls is in the memory around the strings only.** -/
theorem withMem_final {calls calls' : List Ioctl} (h : List.Forall₂ SameRequest calls calls')
    (d : Driver) (mem : List UInt8) (faults : List Fault) : ∃ mem' faults',
      final step (d.withMem mem faults) calls' = (final step d calls).withMem mem' faults' := by
  induction h generalizing d mem faults with
  | nil => exact ⟨mem, faults, rfl⟩
  | cons hcall hcalls ih =>
      obtain ⟨mem₁, faults₁, heq⟩ := withMem_step d mem faults hcall
      obtain ⟨mem', faults', heq'⟩ := ih (step d _) mem₁ faults₁
      refine ⟨mem', faults', ?_⟩
      rw [final, List.foldl_cons, heq]
      exact heq'

/-! ### The pointer to the monitored process -/

theorem tms_putPid (d : Driver) : d.putPid.tms = d.tms := by
  unfold Driver.putPid Driver.readTm
  dsimp only
  split_ifs <;> rfl

theorem tms_kfree_subset (d : Driver) : d.kfree.tms ⊆ d.tms := by
  unfold Driver.kfree
  split_ifs
  · exact Finset.erase_subset _ _
  · exact Finset.Subset.refl _

theorem tms_teardown_subset (d : Driver) (arg : List UInt8) : (d.teardown arg).tms ⊆ d.tms := by
  have hkept : d.kthreadStop.putPid.tms = d.tms :=
    (tms_putPid _).trans (sameTm_kthreadStop d).tms
  have hfreed := tms_kfree_subset d.kthreadStop.putPid
  rw [hkept] at hfreed
  exact hfreed

/-- `NULL` is never a `task_monitor`. -/
theorem null_notMem_tms_step {d : Driver} (h : null ∉ d.tms) (call : Ioctl) :
    null ∉ (step d call).tms := by
  have hother : (∀ arg pid kmalloc thread, call ≠ .taskmonSetPid arg pid kmalloc thread) →
      null ∉ (step d call).tms := by
    intro hcall
    rw [(sameTm_step d hcall).tms]
    exact h
  cases call with
  | taskmonSetPid arg pid kmalloc thread =>
      by_cases htm : d.tm = null
      · have hnull : d.kthreadStop.tm = null := (tm_kthreadStop d).trans htm
        have hkept := (sameTm_kthreadStop d).tms
        simp only [step, etxIoctl, if_pos hnull, Driver.fault]
        rw [hkept]
        exact h
      · have htear := Finset.notMem_mono (tms_teardown_subset d arg) h
        cases pid with
        | none =>
            have hagain := tms_kfree_subset (d.teardown arg).putPid
            rw [tms_putPid] at hagain
            rw [step, setPid_none htm]
            dsimp only
            exact Finset.notMem_mono hagain htear
        | some p =>
            rw [step, setPid_some htm]
            generalize d.teardown arg = d' at htear ⊢
            by_cases hkmalloc : kmalloc = null
            · simp only [if_pos hkmalloc, monitorPid]
              exact htear
            · simp only [if_neg hkmalloc, monitorPid, Driver.kthreadRun, Finset.mem_insert, not_or]
              exact ⟨Ne.symm hkmalloc, htear⟩
  | _ => exact hother (by simp)

theorem null_notMem_tms_final {d : Driver} (h : null ∉ d.tms) (calls : List Ioctl) :
    null ∉ (final step d calls).tms := by
  induction calls generalizing d with
  | nil => exact h
  | cons call calls ih => exact ih (null_notMem_tms_step h call)

/-! ### The two results -/

theorem length_decimal_le (n : UInt64) : (decimal n.toNat).length ≤ 20 := by
  have hlt := n.toNat_lt
  rw [decimal, ascii, List.length_map]
  exact (Nat.length_toDigits_le_iff (by omega) (by omega)).mpr (by omega)

theorem snprintf_sampleText (ts : TaskSample) :
    snprintf 256 (sampleText ts) = sampleText ts ++ [0] := by
  have hu := length_decimal_le ts.utime
  have hs := length_decimal_le ts.stime
  have hfits : (sampleText ts).length ≤ 256 - 1 := by
    simp only [sampleText, ascii, List.length_append, List.length_map, List.length_cons,
      List.length_nil]
    omega
  rw [snprintf, List.take_of_length_le hfits]

theorem zero_notMem_sampleText (ts : TaskSample) : 0 ∉ sampleText ts := by
  simp only [sampleText, List.mem_append, not_or]
  exact ⟨⟨⟨⟨by decide, zero_notMem_decimal _⟩, by decide⟩, zero_notMem_decimal _⟩, by decide⟩

section Results

variable {d : Driver} (htm : d.tm ≠ null) (task : Option Task) (stack : TaskSample) (room : Nat)

include htm

/-- `GET_SAMPLE` delivers a text whatever `get_sample` returned: that of the stack when it returned
`false`. -/
theorem getSample_result (hplaced : d.Placed) :
    (etxIoctl d (.getSample task stack room)).2
      = some ((((sampleText (getSample task stack).1).length - room : Nat) : Int),
          (sampleText (getSample task stack).1).take room) := by
  have hsame := sameStrings_readTm d
  have hread := hsame.grows.placed hplaced
  have hoff : d.readTm.info ≤ d.readTm.mem.length := by
    have := hread.info
    omega
  set text := sampleText (getSample task stack).1 with htext
  have hcut := cstring_store d.readTm d.readTm.info (snprintf 256 text) hoff
  rw [htext, snprintf_sampleText, ← htext, List.append_assoc,
    takeWhile_text (zero_notMem_sampleText _), List.singleton_append,
    List.takeWhile_cons_of_neg (by simp), List.append_nil] at hcut
  have hinfo : (d.readTm.store d.readTm.info (text ++ [0])).info = d.readTm.info :=
    (grows_store _ _ _).info
  simp only [etxIoctl, if_neg htm, copyToUser, ← htext]
  rw [show snprintf 256 text = text ++ [0] from snprintf_sampleText _, hinfo, hcut]

/-- `GET_SAMPLE_STRUCT` delivers what was sampled last. -/
theorem getSampleStruct_result (room' : Nat) :
    (etxIoctl d (.getSampleStruct task room')).2
      = some (((16 - room' : Nat) : Int), (sampleBytes (getSample task d.tsInfo).1).take room') := by
  have hinfo : d.readTm.tsInfo = d.tsInfo := by
    unfold Driver.readTm
    split_ifs <;> rfl
  have hlength : (leBytes 8 (getSample task d.tsInfo).1.utime.toNat
      ++ leBytes 8 (getSample task d.tsInfo).1.stime.toNat).length = 16 := by
    simp
  simp only [etxIoctl, if_neg htm, copyToUser, hinfo, hlength, sampleBytes]

end Results

/-! ### Reads of a freed `task_monitor` -/

theorem count_readTm (d : Driver) : d.readTm.faults.count .readOfFreed
    = d.faults.count .readOfFreed + if d.tm ∈ d.tms then 0 else 1 := by
  unfold Driver.readTm
  split_ifs
  · rfl
  · exact List.count_cons_self

theorem count_store (d : Driver) (off : Nat) (bytes : List UInt8) :
    (d.store off bytes).faults.count .readOfFreed = d.faults.count .readOfFreed := by
  unfold Driver.store
  dsimp only
  split_ifs
  · rfl
  · have hne : Fault.strayStore ≠ .readOfFreed := by decide
    exact List.count_cons_of_ne hne

theorem sameTm_getSample (d : Driver) (task : Option Task) (stack : TaskSample) (room : Nat) :
    SameTm d (step d (.getSample task stack room)) :=
  sameTm_step d fun _ _ _ _ => by simp

/-- Both ioctls read `tm->pid`. -/
theorem reads_iff {d : Driver} (htm : d.tm ≠ null) (task : Option Task) (stack : TaskSample)
    (room room' : Nat) :
    (step (step d (.getSample task stack room)) (.getSampleStruct task room')).faults.count
        .readOfFreed = d.faults.count .readOfFreed ↔ d.tm ∈ d.tms := by
  have hsame := sameTm_getSample d task stack room
  have hfirst : (step d (.getSample task stack room)).faults.count .readOfFreed
      = d.faults.count .readOfFreed + if d.tm ∈ d.tms then 0 else 1 := by
    rw [step_getSample htm, count_store, count_readTm]
  generalize step d (.getSample task stack room) = d' at hsame hfirst ⊢
  have htm' : d'.tm ≠ null := hsame.tm ▸ htm
  have hsecond : (step d' (.getSampleStruct task room')).faults.count .readOfFreed
      = d'.readTm.faults.count .readOfFreed := by
    simp only [step, etxIoctl, if_neg htm']
  rw [hsecond, count_readTm, hsame.tm, hsame.tms, hfirst]
  split_ifs with hmem
  · exact iff_of_true rfl hmem
  · exact iff_of_false (by omega) hmem

/-! ### Runs -/

theorem getSample_of_isAlive {task : Option Task} (halive : IsAlive task) :
    ∃ ts, ∀ sample, (getSample task sample).1 = ts := by
  obtain ⟨task', hmem, halive⟩ := halive
  refine ⟨task'.cputime, fun sample => ?_⟩
  rw [hmem, getSample, if_pos halive]

/-- What a driver whose `tm` is allocated delivers: a sample that both ioctls found, or nothing where
there is no room. -/
theorem delivers_of_mem {d : Driver} (hplaced : d.Placed) (hnull : null ∉ d.tms)
    (hmem : d.tm ∈ d.tms) {task : Option Task} {room room' : Nat} {ts : TaskSample}
    (hts : (∀ sample, (getSample task sample).1 = ts) ∨ room = 0 ∧ room' = 0) (stack : TaskSample) :
    Delivers d task stack room room' ts := by
  have htm : d.tm ≠ null := fun heq => hnull (heq ▸ hmem)
  have htext := getSample_result htm task stack room hplaced
  have htm' : (step d (.getSample task stack room)).tm ≠ null :=
    (sameTm_getSample d task stack room).tm ▸ htm
  have hstruct := getSampleStruct_result htm' task room'
  have hsampled : ∀ sample, (sampleText (getSample task sample).1).take room
        = (sampleText ts).take room
      ∧ (sampleBytes (getSample task sample).1).take room' = (sampleBytes ts).take room' := by
    intro sample
    rcases hts with hts | ⟨rfl, rfl⟩
    · rw [hts]
      exact ⟨rfl, rfl⟩
    · simp only [List.take_zero, and_self]
  rw [(hsampled _).1] at htext
  rw [(hsampled _).2] at hstruct
  exact ⟨⟨_, htext⟩, ⟨_, hstruct⟩, (reads_iff htm task stack room room').mpr hmem⟩

theorem length_sampleBytes (ts : TaskSample) : (sampleBytes ts).length = 16 := by
  simp [sampleBytes]

/-- **The two samples agree exactly when `tm` is allocated and the task alive**, but for a caller who
has no room for either. -/
theorem samplesAgree_iff {d d₀ : Driver} (hload : d.Loaded) {pid : Option Pid}
    {kmalloc thread : Addr} (hinit : monitorInit d pid kmalloc thread = (d₀, some 0))
    (calls : List Ioctl) (task : Option Task) (room room' : Nat) :
    SamplesAgree d₀ calls task room room' ↔
      (final step d₀ calls).tm ∈ (final step d₀ calls).tms
        ∧ (IsAlive task ∨ room = 0 ∧ room' = 0) := by
  have hplaced := placed_final hload hinit
  have hnull : ∀ calls, null ∉ (final step d₀ calls).tms := by
    obtain ⟨p, -, hkmalloc, -, hd₀⟩ := monitorInit_eq hinit
    refine fun calls => null_notMem_tms_final ?_ calls
    have htms : d.tms = ∅ := by rw [hload.eq]
    rw [hd₀]
    simpa [htms] using Ne.symm hkmalloc
  constructor
  · rintro ⟨⟨ts, hpair⟩, hdead⟩
    have hsame : List.Forall₂ SameRequest calls calls := List.forall₂_same.mpr fun c _ => .same c
    obtain ⟨⟨res, htext⟩, ⟨res', hstruct⟩, hreads⟩ := hpair calls hsame ⟨0, 0⟩
    have htm : (final step d₀ calls).tm ≠ null := by
      intro heq
      simp [etxIoctl, heq] at htext
    refine ⟨(reads_iff htm task ⟨0, 0⟩ room room').mp hreads, ?_⟩
    by_contra hnot
    obtain ⟨hnotAlive, hroom⟩ := not_or.mp hnot
    obtain ⟨⟨_, -, hnone⟩, ⟨_, -, hnone'⟩⟩ := hdead hnotAlive ⟨0, 0⟩
    have hcut := (Prod.mk.inj (Option.some.inj (htext.symm.trans hnone))).2
    have hcut' := (Prod.mk.inj (Option.some.inj (hstruct.symm.trans hnone'))).2
    have hlength := length_sampleText_ge ts
    have hlength' := length_sampleBytes ts
    rw [List.take_eq_nil_iff, ← List.length_eq_zero_iff] at hcut hcut'
    omega
  · rintro ⟨hmem, hcond⟩
    obtain ⟨ts, hts⟩ : ∃ ts, (∀ sample, (getSample task sample).1 = ts) ∨ room = 0 ∧ room' = 0 := by
      rcases hcond with halive | hroom
      · obtain ⟨ts, hts⟩ := getSample_of_isAlive halive
        exact ⟨ts, Or.inl hts⟩
      · exact ⟨⟨0, 0⟩, Or.inr hroom⟩
    refine ⟨⟨ts, fun calls' hcalls stack => ?_⟩, fun hdead stack => ?_⟩
    · obtain ⟨mem, faults, heq⟩ := withMem_final hcalls d₀ d₀.mem d₀.faults
      have hfinal : final step d₀ calls' = (final step d₀ calls).withMem mem faults := heq
      refine delivers_of_mem (hplaced calls') (hnull calls') ?_ hts stack
      rw [hfinal]
      exact hmem
    · obtain ⟨rfl, rfl⟩ := hcond.resolve_left hdead
      have htm : (final step d₀ calls).tm ≠ null := fun heq => hnull calls (heq ▸ hmem)
      have htm' := (sameTm_getSample (final step d₀ calls) task stack 0).tm ▸ htm
      have hlength := length_sampleText_ge (getSample task stack).1
      refine ⟨⟨_, ?_, getSample_result htm task stack 0 (hplaced calls)⟩,
        ⟨_, ?_, getSampleStruct_result htm' task 0⟩⟩
      · omega
      · omega

def aliveTask : Task := { alive := true, cputime := ⟨700, 80⟩ }

theorem samplesAgree_aliveTask :
    SamplesAgree startedModule [.taskmonSetPid [7, 0, 0, 0] (some 2) 64 80] (some aliveTask) 256 16 :=
  (samplesAgree_iff loaded_loadedModule monitorInit_loadedModule _ _ 256 16).mpr (by decide)

/-- The sampled process has died: its `struct pid` has no task any more. -/
theorem not_samplesAgree_deadTask :
    loadedModule.Loaded ∧ monitorInit loadedModule (some 1) 16 32 = (startedModule, some 0)
      ∧ ¬ SamplesAgree startedModule [] none 256 16 := by
  refine ⟨loaded_loadedModule, monitorInit_loadedModule, fun hagree => ?_⟩
  obtain ⟨⟨res, hres, htext⟩, -⟩ := hagree.dead (by decide) ⟨42, 7⟩
  exact absurd (Prod.mk.inj (Option.some.inj htext)).2 (by decide)

end Pnl.TaskMonitorIoctl
