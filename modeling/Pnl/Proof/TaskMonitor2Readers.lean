import Pnl.Proof.TaskMonitor2Lifetime
import Pnl.Proof.TaskMonitor2ReaderAlone

/-!
# A reader and the shrinker

A reader has a reference on the sample it formats, but the list has one too, and a scan drops one
from every sample on the lists without asking whose it is. As long as no scan runs while the reader
is at a sample, and those that run follow no wrong link, the references add up and nothing it reads
is freed under it. One scan at any of its four steps is enough to break that.
-/

namespace Pnl.TaskMonitor2

open Bytes Krefs Runs

/-! ### What a reader holds -/

/-- One reference on each listed monitor, and one more where the reader is. -/
def Place.mref : Place → Addr → Int32
  | .sample m _ _ => Function.update (fun _ => 1) m 2
  | .endOfSamples m => Function.update (fun _ => 1) m 2
  | _ => fun _ => 1

/-- One reference on each listed sample, and one more on the sample the reader formats. -/
def Place.tref : Place → Addr → Int32
  | .sample _ t .format => Function.update (fun _ => 1) t 2
  | .sample _ t .drop => Function.update (fun _ => 1) t 2
  | _ => fun _ => 1

def Place.On (s : State) : Place → Prop
  | .monitor m => m ∈ s.tasks
  | .sample m t _ => m ∈ s.tasks ∧ t ∈ s.head m
  | .endOfSamples m => m ∈ s.tasks
  | .nextMonitor m => m ∈ s.tasks
  | .returned => True
  | .lost => False

def Place.cursor : Place → Option Addr
  | .sample _ t _ => some t
  | _ => none

structure ReaderInv (P : Output → Prop) (c : Config) : Prop where
  counted : Counted c.place.mref c.place.tref c.state
  on : c.place.On c.state
  out : P c.out
  linked : c.state.Linked
  intact : c.state.Intact

theorem mref_atSample (m : Addr) (t : Option Addr) :
    (atSample m t).mref = Function.update (fun _ => 1) m 2 := by
  cases t <;> rfl

theorem tref_atSample (m : Addr) (t : Option Addr) : (atSample m t).tref = fun _ => 1 := by
  cases t <;> rfl

theorem on_atSample {s : State} {m : Addr} (hm : m ∈ s.tasks) {o : Option Addr}
    (ho : ∀ t ∈ o, t ∈ s.head m) : (atSample m o).On s := by
  cases o with
  | none => exact hm
  | some t => exact ⟨hm, ho t rfl⟩

theorem mref_atMonitor (m : Option Addr) : (atMonitor m).mref = fun _ => 1 := by
  cases m <;> rfl

theorem tref_atMonitor (m : Option Addr) : (atMonitor m).tref = fun _ => 1 := by
  cases m <;> rfl

theorem on_atMonitor {s : State} {o : Option Addr} (ho : ∀ m ∈ o, m ∈ s.tasks) :
    (atMonitor o).On s := by
  cases o with
  | none => trivial
  | some m => exact ho m rfl

theorem mem_of_mem_listPrev {l : List Addr} {t x : Addr} (h : x ∈ listPrev l t) : x ∈ l :=
  (List.takeWhile_prefix _).subset (List.mem_of_getLast? h)

theorem mem_of_mem_listNext {l : List Addr} {m x : Addr} (h : x ∈ listNext l m) : x ∈ l :=
  (List.dropWhile_suffix _).subset (List.mem_of_mem_tail (List.mem_of_head? h))

theorem mref_ne_zero (place : Place) (m : Addr) : place.mref m ≠ 0 := by
  have hupdate : ∀ a : Addr, Function.update (fun _ => (1 : Int32)) a 2 m ≠ 0 := by
    intro a
    by_cases hma : m = a
    · rw [hma, Function.update_self]
      decide
    · rw [Function.update_of_ne hma]
      decide
  cases place with
  | sample a t phase => exact hupdate a
  | endOfSamples a => exact hupdate a
  | _ => exact refs_one_ne_zero m

theorem tref_of_cursor {place : Place} (h : place.cursor = none) : place.tref = fun _ => 1 := by
  cases place with
  | sample m t phase => cases h
  | _ => rfl

theorem tref_of_ne {place : Place} {ts : Addr} (h : ∀ t ∈ place.cursor, ts ≠ t) :
    place.tref ts = 1 := by
  cases place with
  | sample m t phase =>
      have hne : ts ≠ t := h t rfl
      cases phase with
      | format => rw [Place.tref, Function.update_of_ne hne]
      | drop => rw [Place.tref, Function.update_of_ne hne]
      | _ => rfl
  | _ => rfl

/-- **One step of a reader** that is alone at it keeps the invariant and frees nothing. -/
theorem ReaderInv.read {emit : Emit} {P : Output → Prop} (hemit : emit.Keeps P) {c : Config}
    (h : ReaderInv P c) :
    ReaderInv P (c.read emit) ∧ (c.read emit).state.samples.freed = c.state.samples.freed := by
  obtain ⟨s, place, pid, out⟩ := c
  obtain ⟨hcounted, hon, hout, hlinked, hintact⟩ := h
  dsimp only at hcounted hon hout hlinked hintact
  have hintact' : ∀ m v, (s.setMref m v).Intact ∧ (s.setTref m v).Intact := fun _ _ =>
    ⟨⟨hintact.wild, hintact.headTaken⟩, ⟨hintact.wild, hintact.headTaken⟩⟩
  cases place with
  | monitor m =>
      have hheld := hcounted.setMref m (1 + 1)
      rw [hcounted.read_monitor hon (refs_one_ne_zero m)]
      refine ⟨⟨?_, on_atSample hon fun t ht => List.mem_of_getLast? ht, hout, hlinked,
        (hintact' _ _).1⟩, rfl⟩
      rw [mref_atSample, tref_atSample]
      exact hheld
  | sample m t phase =>
      have hlive := hcounted.samples m hon.1 t hon.2
      cases phase with
      | take =>
          have hheld := hcounted.setTref t (1 + 1)
          rw [hcounted.read_take hlive (refs_one_ne_zero t)]
          exact ⟨⟨hheld, hon, hout, hlinked, (hintact' _ _).2⟩, rfl⟩
      | format =>
          obtain ⟨out', hemitted, hout'⟩ := hemit pid (s.times t) out hout
          rw [read_format hlive hemitted]
          exact ⟨⟨hcounted, hon, hout', hlinked, hintact⟩, rfl⟩
      | drop =>
          have hself : (Place.sample m t .drop).tref t = 2 := by
            rw [Place.tref, Function.update_self]
          have hback := hcounted.setTref t (2 - 1)
          rw [Place.tref, Function.update_idem] at hback
          rw [hcounted.read_drop hlive (by rw [hself]; decide), hself]
          refine ⟨⟨?_, hon, hout, hlinked, (hintact' _ _).2⟩, rfl⟩
          rwa [← Function.update_eq_self t ((Place.sample m t .move).tref)]
      | move =>
          rw [read_move hlive hon.2 (hlinked m hon.1 t hon.2)]
          refine ⟨⟨?_, on_atSample hon.1 fun x hx => mem_of_mem_listPrev hx, hout, hlinked, hintact⟩,
            rfl⟩
          rw [mref_atSample, tref_atSample]
          exact hcounted
  | endOfSamples m =>
      have hself : (Place.endOfSamples m).mref m = 2 := by
        rw [Place.mref, Function.update_self]
      have hback := hcounted.setMref m (2 - 1)
      rw [Place.mref, Function.update_idem] at hback
      rw [hcounted.read_endOfSamples hon (by rw [hself]; decide), hself]
      refine ⟨⟨?_, hon, hout, hlinked, (hintact' _ _).1⟩, rfl⟩
      rwa [← Function.update_eq_self m ((Place.nextMonitor m).mref)]
  | nextMonitor m =>
      rw [hcounted.read_nextMonitor hon]
      refine ⟨⟨?_, on_atMonitor fun x hx => mem_of_mem_listNext hx, hout, hlinked, hintact⟩, rfl⟩
      rw [mref_atMonitor, tref_atMonitor]
      exact hcounted
  | returned => exact ⟨⟨hcounted, hon, hout, hlinked, hintact⟩, rfl⟩
  | lost => exact absurd hon id

/-! ### Calls in between -/

def Action.Allowed (c : Config) : Action → Prop
  | .saveSample tm alloc _ => tm ∈ c.state.tasks ∧ ∀ object ∈ alloc, object.1 ∉ c.state.samples.live
  | _ => True

/-- No scan runs while the reader is at a sample, or follows a wrong link. -/
def Action.Calm (c : Config) : Action → Prop
  | .myShrinkScan gfpMask =>
      gfpMask &&& gfpFs = 0 ∨ c.place.cursor = none ∧ c.state.Aligned c.state.tasks
  | _ => True

/-- The sample the reader has its reference on, or follows the link of. -/
def Place.relied : Place → Option Addr
  | .sample _ _ .take => none
  | .sample _ t _ => some t
  | _ => none

/-- The sample the reader relies on is allocated, the step does not free it, and the lists are as they
should be after it. -/
def Kept (emit : Emit) (c : Config) (action : Action) : Prop :=
  (∀ t ∈ c.place.relied, t ∈ c.state.samples.live
      ∧ (c.act emit action).state.samples.freed.count t = c.state.samples.freed.count t)
    ∧ (c.act emit action).state.Intact

theorem ReaderInv.relied_live {P : Output → Prop} {c : Config} (h : ReaderInv P c) {t : Addr}
    (ht : t ∈ c.place.cursor) : t ∈ c.state.samples.live := by
  obtain ⟨s, place, pid, out⟩ := c
  cases place with
  | sample m t' phase =>
      obtain rfl : t' = t := Option.some.inj ht
      exact h.counted.samples m h.on.1 t' h.on.2
  | _ => cases ht

theorem cursor_of_relied {place : Place} {t : Addr} (h : t ∈ place.relied) : t ∈ place.cursor := by
  cases place with
  | sample m t' phase =>
      cases phase with
      | take => cases h
      | _ => exact h
  | _ => cases h

theorem on_saved {s : State} {place : Place} (h : place.On s) (tm ts : Addr) (times : Times) :
    place.On (s.saved tm ts times) := by
  cases place with
  | sample m t phase => exact ⟨h.1, mem_saved_head.mpr (Or.inl h.2)⟩
  | _ => exact h

theorem on_droppedAll {s : State} {place : Place} (h : place.On s) (hcursor : place.cursor = none)
    (ts : List Addr) : place.On (s.droppedAll ts) := by
  have htasks := droppedAll_tasks s ts
  cases place with
  | sample m t phase => cases hcursor
  | returned => trivial
  | lost => exact h
  | _ =>
      rw [Place.On, htasks]
      exact h

/-- A scan while the reader is not at a sample follows a wrong link unless the lists are straight. -/
theorem ReaderInv.intact_scan_iff {emit : Emit} {P : Output → Prop} {c : Config}
    (h : ReaderInv P c) (hcursor : c.place.cursor = none) {gfpMask : UInt32}
    (hmask : gfpMask &&& gfpFs ≠ 0) :
    (c.act emit (.myShrinkScan gfpMask)).state.Intact ↔ c.state.Aligned c.state.tasks := by
  have hcounted := h.counted
  rw [tref_of_cursor hcursor] at hcounted
  rw [Config.act, hcounted.myShrinkScan_eq (mref_ne_zero c.place) hmask]
  exact h.counted.intact_droppedAll_iff h.linked (fun _ => Iff.rfl) h.counted.tasks_nodup h.intact

theorem ReaderInv.act {emit : Emit} {P : Output → Prop} (hemit : emit.Keeps P) (c : Config)
    (action : Action) (h : ReaderInv P c) (hallowed : action.Allowed c) (hcalm : action.Calm c) :
    ReaderInv P (c.act emit action) ∧ Kept emit c action := by
  cases action with
  | read =>
      have hread := h.read hemit
      refine ⟨hread.1, fun t ht => ⟨h.relied_live (cursor_of_relied ht), ?_⟩, hread.1.intact⟩
      rw [Config.act, hread.2]
  | myShrinkScan gfpMask =>
      by_cases hmask : gfpMask &&& gfpFs = 0
      · have hsame : c.act emit (.myShrinkScan gfpMask) = c := by
          rw [Config.act, myShrinkScan_of_mask hmask]
        rw [Kept, hsame]
        exact ⟨h, fun t ht => ⟨h.relied_live (cursor_of_relied ht), rfl⟩, h.intact⟩
      · obtain ⟨hcursor, haligned⟩ := hcalm.resolve_left hmask
        have hcounted := h.counted
        rw [tref_of_cursor hcursor] at hcounted
        have hscan := hcounted.myShrinkScan (mref_ne_zero c.place) gfpMask
        have hon := on_droppedAll h.on hcursor c.state.listed
        have heq := hcounted.myShrinkScan_eq (mref_ne_zero c.place) hmask
        have hintact : (c.act emit (.myShrinkScan gfpMask)).state.Intact :=
          (h.intact_scan_iff hcursor hmask).mpr haligned
        refine ⟨⟨?_, ?_, h.out, ?_, hintact⟩, fun t ht => ?_, hintact⟩
        · rw [Config.act]
          dsimp only
          rw [tref_of_cursor hcursor]
          exact hscan
        · rw [Config.act, heq]
          exact hon
        · rw [Config.act, heq]
          exact linked_droppedAll_listed c.state
        · have hat := cursor_of_relied ht
          rw [hcursor] at hat
          cases hat
  | saveSample tm alloc task =>
      obtain ⟨htm, hfresh⟩ := hallowed
      have hone : ∀ ts contents, alloc = some (ts, contents) →
          ts ∉ c.state.samples.live ∧ c.place.tref ts = 1 := by
        intro ts contents halloc
        have hnew := hfresh (ts, contents) halloc
        refine ⟨hnew, tref_of_ne fun t ht hts => hnew ?_⟩
        rw [hts]
        exact h.relied_live ht
      have hcounted := h.counted.saveSample htm hone task
      cases alloc with
      | none => exact ⟨h, fun t ht => ⟨h.relied_live (cursor_of_relied ht), rfl⟩, h.intact⟩
      | some object =>
          have heq := h.counted.toAllocated.saveSample_eq htm object.1 object.2 task
          have hintact : (c.act emit (.saveSample tm (some object) task)).state.Intact := by
            rw [Config.act, heq]
            exact (intact_endures.saved _ _ _ _).mpr h.intact
          refine ⟨⟨hcounted, ?_, h.out, ?_, hintact⟩,
            fun t ht => ⟨h.relied_live (cursor_of_relied ht), ?_⟩, hintact⟩
          · rw [Config.act, heq]
            exact on_saved h.on tm object.1 _
          · rw [Config.act, heq]
            exact h.linked.saved _ _ _
          · rw [Config.act, heq]
            rfl

/-! ### A scan while the reader is at a sample -/

/-- A scan leaves the sample that the reader holds on its list, with one reference. -/
theorem Counted.scan_held {mref : Addr → Int32} {s : State} {m t : Addr}
    (h : Counted mref (Function.update (fun _ => 1) t 2) s) (hm : m ∈ s.tasks)
    (ht : t ∈ s.head m) :
    Allocated (s.unrefAll s.listed) ∧ t ∈ (s.unrefAll s.listed).head m
      ∧ (s.unrefAll s.listed).samples.refs t = 1 := by
  have hmem : t ∈ s.listed := mem_listed.mpr ⟨m, hm, ht⟩
  obtain ⟨before, after, hsplit⟩ := List.append_of_mem hmem
  have hnodup := h.listed_nodup
  rw [hsplit] at hnodup
  obtain ⟨-, hafter, hdisjoint⟩ := List.nodup_append.mp hnodup
  have hnotbefore : t ∉ before := fun hx => hdisjoint t hx t (by simp) rfl
  have hnotafter : t ∉ after := (List.nodup_cons.mp hafter).1
  have htwo : (s.unrefAll before).samples.refs t = 2 := by
    rw [refs_unrefAll_of_not_mem hnotbefore, h.tref t (h.samples m hm t ht), Function.update_self]
  have hone : ((s.unrefAll before).unref t).samples.refs t = 1 := by
    rw [State.unref, htwo]
    exact Function.update_self _ _ _
  rw [hsplit, unrefAll_append, unrefAll_cons]
  refine ⟨((h.toAllocated.unrefAll before).unref t).unrefAll after, ?_, ?_⟩
  · rw [mem_head_unrefAll_of_not_mem hnotafter, mem_head_unref, htwo,
      mem_head_unrefAll_of_not_mem hnotbefore]
    exact ⟨ht, Or.inr (by decide)⟩
  · rw [refs_unrefAll_of_not_mem hnotafter, hone]

/-- The reader's own `kref_put` frees a sample that has lost the reference of its list. -/
theorem not_kept_drop {emit : Emit} {s : State} (h : Allocated s) {m t : Addr} (hm : m ∈ s.tasks)
    (ht : t ∈ s.head m) (hone : s.samples.refs t = 1) (pid : Int32) (out : Output) :
    ¬ Kept emit ⟨s, .sample m t .drop, pid, out⟩ .read := by
  intro hkept
  have hcount := (hkept.1 t rfl).2
  rw [Config.act, Config.read] at hcount
  dsimp only at hcount
  have hfreed : (s.dropped t).samples.freed = t :: s.samples.freed := rfl
  rw [h.krefPutSample_last hm ht hone, hfreed, List.count_cons_self] at hcount
  omega

theorem not_mem_droppedAll_listed {s : State} {m t : Addr} (hm : m ∈ s.tasks) (ht : t ∈ s.head m) :
    t ∉ (s.droppedAll s.listed).samples.live := by
  rw [droppedAll_live, Finset.mem_sdiff, List.mem_toFinset]
  exact fun hlive => hlive.2 (mem_listed.mpr ⟨m, hm, ht⟩)

theorem relied_read_take (emit : Emit) (s : State) (m t : Addr) (pid : Int32) (out : Output) :
    t ∈ (Config.read emit ⟨s, .sample m t .take, pid, out⟩).place.relied
      ∧ (Config.read emit ⟨s, .sample m t .take, pid, out⟩).state.samples.live
        = s.samples.live := by
  rw [Config.read]
  dsimp only [State.krefGetSample]
  refine ⟨?_, getUnlessZero_live s.samples t⟩
  split_ifs <;> rfl

/-- **A scan while the reader is at a sample**, whatever it does next there: before the reader has
left the sample, memory it relies on is freed. -/
theorem ReaderInv.not_kept_scan {emit : Emit} {P : Output → Prop} (hemit : emit.Keeps P)
    {c : Config} (h : ReaderInv P c) (hcursor : c.place.cursor ≠ none) {gfpMask : UInt32}
    (hmask : gfpMask &&& gfpFs ≠ 0) :
    ¬ StepsMeet (Config.act emit) (Kept emit) c [.myShrinkScan gfpMask, .read, .read] := by
  obtain ⟨s, place, pid, out⟩ := c
  obtain ⟨hcounted, hon, hout, -, -⟩ := h
  dsimp only at hcounted hon hout hcursor
  cases place with
  | sample m t phase =>
      obtain ⟨hm, ht⟩ := hon
      have href := mref_ne_zero (.sample m t phase)
      have hgone := not_mem_droppedAll_listed hm ht
      rintro ⟨hscan, hfirst, hsecond, -⟩
      rw [Config.act] at hfirst hsecond
      dsimp only at hfirst hsecond
      cases phase with
      | take =>
          -- the reference it takes is on a freed sample
          rw [hcounted.myShrinkScan_eq href hmask] at hsecond
          obtain ⟨hrelied, hlive⟩ := relied_read_take emit (s.droppedAll s.listed) m t pid out
          have hallocated := (hsecond.1 t hrelied).1
          rw [Config.act, hlive] at hallocated
          exact hgone hallocated
      | format =>
          obtain ⟨hallocated, hmem, hone⟩ := hcounted.scan_held hm ht
          have hm' : m ∈ (s.unrefAll s.listed).tasks := by rwa [unrefAll_tasks]
          obtain ⟨out', hemitted, -⟩ := hemit pid ((s.unrefAll s.listed).times t) out hout
          rw [hcounted.myShrinkScan_unref href hmask, Config.act,
            read_format (hallocated.samples m hm' t hmem) hemitted] at hsecond
          exact not_kept_drop hallocated hm' hmem hone pid out' hsecond
      | drop =>
          obtain ⟨hallocated, hmem, hone⟩ := hcounted.scan_held hm ht
          have hm' : m ∈ (s.unrefAll s.listed).tasks := by rwa [unrefAll_tasks]
          rw [hcounted.myShrinkScan_unref href hmask] at hfirst
          exact not_kept_drop hallocated hm' hmem hone pid out hfirst
      | move =>
          rw [hcounted.myShrinkScan_eq href hmask] at hfirst
          exact hgone (hfirst.1 t rfl).1
  | _ => exact absurd rfl hcursor

inductive Shown where
  | sysfs
  | debugfs

def Shown.emit : Shown → Emit
  | .sysfs => sysfsEmit
  | .debugfs => debugfsEmit

def Shown.Provides (buf : List UInt8) : Shown → Prop
  | .sysfs => buf.length = pageSize
  | .debugfs => True

theorem readerInv_start {s : State} (h : Accounted s) (hintact : s.Intact) {P : Output → Prop}
    {buf : List UInt8} (hout : P { buf := buf }) : ReaderInv P (Config.start s buf) := by
  refine ⟨?_, on_atMonitor fun m hm => List.mem_of_head? hm, hout, h.linked, hintact⟩
  rw [Config.start]
  dsimp only
  rw [mref_atMonitor, tref_atMonitor]
  exact h.toCounted

theorem Shown.keeps (shown : Shown) {buf : List UInt8} (hbuf : shown.Provides buf) :
    ∃ P, shown.emit.Keeps P ∧ P { buf := buf } := by
  cases shown with
  | sysfs => exact ⟨_, sysfsEmit_keeps, hbuf, Nat.succ_pos 4095⟩
  | debugfs => exact ⟨_, debugfsEmit_keeps, trivial⟩

/-- **A reader is safe from the shrinker exactly while it is not at a sample**, and the samples are
not in each other's way. In a run where every scan finds the reader off the samples and the lists
straight, every step keeps the sample it relies on and the lists, and no freed object is used; any
other scan, wherever that run has got to, ends this within the next two steps of the reader. -/
theorem reader_kept (shown : Shown) {s : State} (h : Accounted s) (hintact : s.Intact)
    {buf : List UInt8} (hbuf : shown.Provides buf) {actions : List Action}
    (hallowed : StepsMeet (Config.act shown.emit) Action.Allowed (Config.start s buf) actions)
    (hcalm : StepsMeet (Config.act shown.emit) Action.Calm (Config.start s buf) actions) :
    StepsMeet (Config.act shown.emit) (Kept shown.emit) (Config.start s buf) actions
      ∧ ∀ c ∈ states (Config.act shown.emit) (Config.start s buf) actions,
          (c.state.samples.faults = 0 ∧ c.state.monitors.faults = 0)
          ∧ ∀ gfpMask, ¬ Action.Calm c (.myShrinkScan gfpMask) →
            ¬ StepsMeet (Config.act shown.emit) (Kept shown.emit) c
              [.myShrinkScan gfpMask, .read, .read] := by
  obtain ⟨P, hemit, hout⟩ := shown.keeps hbuf
  have hstart := readerInv_start h hintact hout
  have hboth := stepsMeet_and.mpr ⟨hallowed, hcalm⟩
  have hkeep : ∀ c action, ReaderInv P c → action.Allowed c ∧ action.Calm c →
      ReaderInv P (c.act shown.emit action) := fun c action hinv hcond =>
    (hinv.act hemit c action hcond.1 hcond.2).1
  refine ⟨stepsMeet_of_inv hkeep ?_ hstart hboth, fun c hc => ?_⟩
  · exact fun c action hinv hcond => (hinv.act hemit c action hcond.1 hcond.2).2
  · have hinv := invariant hkeep hstart hboth c hc
    refine ⟨⟨hinv.counted.sample_faults, hinv.counted.monitor_faults⟩, fun gfpMask hrough => ?_⟩
    obtain ⟨hmask, hrough⟩ := not_or.mp hrough
    by_cases hcursor : c.place.cursor = none
    · rintro ⟨⟨-, hscanned⟩, -⟩
      exact hrough ⟨hcursor, (hinv.intact_scan_iff hcursor hmask).mp hscanned⟩
    · exact hinv.not_kept_scan hemit hcursor hmask

instance (c : Config) : (action : Action) → Decidable (action.Allowed c)
  | .saveSample tm alloc _ => inferInstanceAs
      (Decidable (tm ∈ c.state.tasks ∧ ∀ object ∈ alloc, object.1 ∉ c.state.samples.live))
  | .read => inferInstanceAs (Decidable True)
  | .myShrinkScan _ => inferInstanceAs (Decidable True)

instance (c : Config) : (action : Action) → Decidable (action.Calm c)
  | .myShrinkScan _ => inferInstanceAs (Decidable (_ ∨ _ ∧ _))
  | .read => inferInstanceAs (Decidable True)
  | .saveSample _ _ _ => inferInstanceAs (Decidable True)

instance (emit : Emit) (c : Config) (action : Action) : Decidable (Kept emit c action) :=
  inferInstanceAs (Decidable ((∀ t ∈ c.place.relied, _ ∧ _) ∧ _))

def State.sampled : State :=
  step State.loaded (.saveSample 0x1000 (some (0x2000, { utime := 0, stime := 0 })) none)

theorem accounted_sampled : Accounted State.sampled :=
  accounted_step _ _ loaded_loaded.fresh.accounted (by decide)

def calmActions : List Action :=
  [.read, .read, .saveSample 0x1000 (some (0x2050, { utime := 1, stime := 2 })) none,
    .myShrinkScan 0, .read, .read, .read, .myShrinkScan 0x80, .read, .read]

theorem reader_kept_calmActions :
    StepsMeet (Config.act Shown.debugfs.emit) (Kept Shown.debugfs.emit)
        (Config.start State.sampled []) calmActions
      ∧ ∀ c ∈ states (Config.act Shown.debugfs.emit) (Config.start State.sampled []) calmActions,
          (c.state.samples.faults = 0 ∧ c.state.monitors.faults = 0)
          ∧ ∀ gfpMask, ¬ Action.Calm c (.myShrinkScan gfpMask) →
            ¬ StepsMeet (Config.act Shown.debugfs.emit) (Kept Shown.debugfs.emit) c
              [.myShrinkScan gfpMask, .read, .read] :=
  reader_kept .debugfs accounted_sampled (by decide) trivial (by decide) (by decide)

def scannedTwice : List Action := [.read, .read, .myShrinkScan 0x80, .myShrinkScan 0x80]

/-- One scan when the reader has done `k` of the four steps at its sample, which it then finishes. -/
def scannedAt (k : Nat) : List Action :=
  .read :: List.replicate k .read ++ .myShrinkScan 0x80 :: List.replicate (4 - k) .read

/-- The reader still has its reference when the second scan frees the sample. A single scan is
enough for it to follow the link of a freed sample, whichever of the four steps it comes before. -/
theorem not_kept_scanned :
    (Accounted State.sampled ∧ State.sampled.Intact)
      ∧ (final (Config.act debugfsEmit) (Config.start State.sampled []) scannedTwice).place
          = .sample 0x1000 0x2000 .format
      ∧ (final (Config.act debugfsEmit) (Config.start State.sampled []) scannedTwice).state.samples.freed
          = [0x2000]
      ∧ ¬ StepsMeet (Config.act debugfsEmit) (Kept debugfsEmit) (Config.start State.sampled [])
          scannedTwice
      ∧ ∀ k < 4,
          StepsMeet (Config.act debugfsEmit) Action.Allowed (Config.start State.sampled [])
            (scannedAt k)
          ∧ ¬ StepsMeet (Config.act debugfsEmit) (Kept debugfsEmit) (Config.start State.sampled [])
            (scannedAt k)
          ∧ (final (Config.act debugfsEmit) (Config.start State.sampled [])
              (scannedAt k)).state.samples.faults ≠ 0 :=
  ⟨⟨accounted_sampled, by decide⟩, by decide, by decide, by decide, by decide⟩

end Pnl.TaskMonitor2
