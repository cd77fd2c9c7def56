import Pnl.Proof.TaskMonitor2Refs

/-!
# What happens to monitors and samples

Every operation of the module is a sequence of a few effects on its objects: a sample added, a
reference on a sample dropped and the sample with the last one, a monitor dropped. This module says
what each of them does to the lists, the counters and the pools, and that it keeps them in order.
-/

namespace Pnl.TaskMonitor2

open Bytes Krefs

/-! ### A sample dropped -/

def State.samplesWithout (s : State) (t : Addr) : Pool Addr :=
  { s.samples with
    live := s.samples.live.erase t
    refs := Function.update s.samples.refs t 0
    freed := t :: s.samples.freed }

def State.dropped (s : State) (t : Addr) : State :=
  { s with
    samples := s.samplesWithout t
    head := fun m => (s.head m).filter (· ≠ t)
    totalDestroyed := s.totalDestroyed + 1
    nbSamples := Function.update s.nbSamples (containerOfHead t)
      (s.nbSamples (containerOfHead t) - 1)
    bent := insert (behind t) (s.bentAfter t)
    wild := (s.followPrev t).wild
    freedWrites := s.freedWrites + (s.samplesWithout t).freedHits (behind t) }

def State.droppedAll (s : State) (ts : List Addr) : State := ts.foldl State.dropped s

theorem Allocated.krefPutSample_last {s : State} (h : Allocated s) {m t : Addr} (hm : m ∈ s.tasks)
    (ht : t ∈ s.head m) (href : s.samples.refs t = 1) : s.krefPutSample t = s.dropped t := by
  have hlive : t ∈ s.samples.live := h.samples m hm t ht
  have hzero : s.samples.refs t - 1 = 0 := by
    rw [href]
    decide
  rw [State.krefPutSample, put_of_mem hlive, hzero]
  set s' : State :=
    { s with samples := { s.samples with refs := Function.update s.samples.refs t 0 } } with hs'
  have hallocated : Allocated s' := ⟨h.monitors, h.samples⟩
  have hdel := hallocated.listDelSample_eq hm ht
  have hfree : s'.samples.free t
      = { s'.samples with live := s'.samples.live.erase t, freed := t :: s'.samples.freed } :=
    free_of_mem hlive
  simp only [decide_true, if_true]
  rw [State.taskSampleRelease, hdel]
  simp only [hfree]
  rfl

theorem Allocated.dropped {s : State} (h : Allocated s) (t : Addr) : Allocated (s.dropped t) := by
  refine ⟨h.monitors, fun m hm x hx => ?_⟩
  obtain ⟨hx, hne⟩ := List.mem_filter.mp hx
  exact Finset.mem_erase.mpr ⟨of_decide_eq_true hne, h.samples m hm x hx⟩

theorem Counted.dropped {mref tref : Addr → Int32} {s : State} (h : Counted mref tref s) {t : Addr}
    (ht : t ∈ s.samples.live) : Counted mref tref (s.dropped t) where
  toAllocated := h.toAllocated.dropped t
  tasks_nodup := h.tasks_nodup
  head_nodup := fun m hm => (h.head_nodup m hm).filter _
  one_list := fun m hm m' hm' x hx hx' =>
    h.one_list m hm m' hm' x (List.mem_filter.mp hx).1 (List.mem_filter.mp hx').1
  monitors_listed := h.monitors_listed
  samples_listed := by
    intro x hx
    obtain ⟨hne, hx⟩ := Finset.mem_erase.mp hx
    obtain ⟨m, hm, hx⟩ := h.samples_listed x hx
    exact ⟨m, hm, List.mem_filter.mpr ⟨hx, decide_eq_true hne⟩⟩
  mref := h.mref
  tref := by
    intro x hx
    obtain ⟨hne, hx⟩ := Finset.mem_erase.mp hx
    exact (Function.update_of_ne hne _ _).trans (h.tref x hx)
  total := by
    have hcard : s.samples.live.card = (s.samples.live.erase t).card + 1 :=
      (Finset.card_erase_add_one ht).symm
    have htotal := h.total
    rw [hcard, Int32.ofNat_add] at htotal
    calc s.totalCreated - (s.totalDestroyed + 1)
        = s.totalCreated - s.totalDestroyed - 1 := (Int32.sub_sub _ _ _).symm
      _ = Int32.ofNat (s.samples.live.erase t).card := by
          rw [htotal]
          exact Int32.add_sub_cancel _ _
  monitor_faults := h.monitor_faults
  sample_faults := h.sample_faults

theorem droppedAll_cons (s : State) (t : Addr) (ts : List Addr) :
    s.droppedAll (t :: ts) = (s.dropped t).droppedAll ts := rfl

section DroppedAll

variable (s : State) (ts : List Addr)

theorem droppedAll_tasks : (s.droppedAll ts).tasks = s.tasks := by
  induction ts generalizing s with
  | nil => rfl
  | cons t ts ih => exact ih (s.dropped t)

theorem droppedAll_monitors : (s.droppedAll ts).monitors = s.monitors := by
  induction ts generalizing s with
  | nil => rfl
  | cons t ts ih => exact ih (s.dropped t)

theorem droppedAll_head (m : Addr) : (s.droppedAll ts).head m = (s.head m).filter (· ∉ ts) := by
  induction ts generalizing s with
  | nil => exact (List.filter_eq_self.mpr (by simp)).symm
  | cons t ts ih =>
      rw [droppedAll_cons, ih]
      simp only [State.dropped, List.filter_filter]
      refine List.filter_congr fun x _ => ?_
      simp [Bool.and_comm]

theorem droppedAll_listed_head {m : Addr} (hm : m ∈ s.tasks) :
    (s.droppedAll s.listed).head m = [] := by
  rw [droppedAll_head, List.filter_eq_nil_iff]
  intro t ht
  simp [mem_listed.mpr ⟨m, hm, ht⟩]

theorem linked_droppedAll_listed : (s.droppedAll s.listed).Linked := by
  intro m hm t ht
  rw [droppedAll_tasks] at hm
  rw [droppedAll_listed_head s hm] at ht
  cases ht

theorem droppedAll_freed : (s.droppedAll ts).samples.freed = ts.reverse ++ s.samples.freed := by
  induction ts generalizing s with
  | nil => rfl
  | cons t ts ih =>
      rw [droppedAll_cons, ih, List.reverse_cons, List.append_assoc]
      rfl

theorem droppedAll_live : (s.droppedAll ts).samples.live = s.samples.live \ ts.toFinset := by
  induction ts generalizing s with
  | nil => simp [State.droppedAll]
  | cons t ts ih =>
      rw [droppedAll_cons, ih, List.toFinset_cons, Finset.sdiff_insert]
      exact Finset.erase_sdiff_comm _ _ _

end DroppedAll

theorem Allocated.droppedAll {s : State} (h : Allocated s) (ts : List Addr) :
    Allocated (s.droppedAll ts) := by
  induction ts generalizing s with
  | nil => exact h
  | cons t ts ih => exact ih (h.dropped t)

theorem Counted.droppedAll {mref tref : Addr → Int32} {s : State} (h : Counted mref tref s)
    {ts : List Addr} (hlive : ∀ t ∈ ts, t ∈ s.samples.live) (hnodup : ts.Nodup) :
    Counted mref tref (s.droppedAll ts) := by
  induction ts generalizing s with
  | nil => exact h
  | cons t ts ih =>
      obtain ⟨ht, hnodup⟩ := List.nodup_cons.mp hnodup
      refine ih (h.dropped (hlive t (by simp))) (fun x hx => ?_) hnodup
      refine Finset.mem_erase.mpr ⟨?_, hlive x (by simp [hx])⟩
      rintro rfl
      exact ht hx

theorem Counted.head_droppedAll_of_ne {mref tref : Addr → Int32} {s : State}
    (h : Counted mref tref s) {m m' : Addr} (hm : m ∈ s.tasks) (hm' : m' ∈ s.tasks) (hne : m ≠ m') :
    (s.droppedAll (s.head m)).head m' = s.head m' := by
  rw [droppedAll_head, List.filter_eq_self]
  intro t ht
  exact decide_eq_true fun htm => hne (h.one_list m hm m' hm' t htm ht)

/-! ### A reference of every sample dropped -/

/-- What is left when a reference on a sample is dropped. -/
def State.unref (s : State) (t : Addr) : State :=
  if s.samples.refs t = 1 then s.dropped t else s.setTref t (s.samples.refs t - 1)

def State.unrefAll (s : State) (ts : List Addr) : State := ts.foldl State.unref s

theorem unrefAll_cons (s : State) (t : Addr) (ts : List Addr) :
    s.unrefAll (t :: ts) = (s.unref t).unrefAll ts := rfl

section Unref

variable (s : State) (t : Addr)

theorem unref_tasks : (s.unref t).tasks = s.tasks := by
  rw [State.unref]
  split_ifs <;> rfl

theorem unref_monitors : (s.unref t).monitors = s.monitors := by
  rw [State.unref]
  split_ifs <;> rfl

theorem unref_withMonitors (monitors : Pool Addr) :
    (s.withMonitors monitors).unref t = (s.unref t).withMonitors monitors := by
  have hsame : (s.withMonitors monitors).samples = s.samples := rfl
  have hbent : (s.withMonitors monitors).bentAfter t = s.bentAfter t := rfl
  have hwithout : (s.withMonitors monitors).samplesWithout t = s.samplesWithout t := rfl
  have hwild : ((s.withMonitors monitors).followPrev t).wild = (s.followPrev t).wild := rfl
  rw [State.unref, State.unref, hsame]
  split_ifs
  · rw [State.dropped, State.dropped, hbent, hwithout, hwild, State.withMonitors, State.withMonitors]
  · rfl

theorem refs_unref_of_ne {x : Addr} (hne : x ≠ t) :
    (s.unref t).samples.refs x = s.samples.refs x := by
  rw [State.unref]
  split_ifs
  · exact Function.update_of_ne hne _ _
  · exact Function.update_of_ne hne _ _

theorem mem_head_unref {m x : Addr} :
    x ∈ (s.unref t).head m ↔ x ∈ s.head m ∧ (x ≠ t ∨ s.samples.refs t ≠ 1) := by
  rw [State.unref]
  split_ifs with href
  · rw [State.dropped, List.mem_filter]
    simp [href]
  · simp [State.setTref, href]

theorem head_unref_of_not_mem {m : Addr} (h : t ∉ s.head m) : (s.unref t).head m = s.head m := by
  rw [State.unref]
  split_ifs
  · exact List.filter_eq_self.mpr fun x hx => decide_eq_true fun hxt => h (hxt ▸ hx)
  · rfl

end Unref

theorem Allocated.krefPutSample_eq {s : State} (h : Allocated s) {m t : Addr} (hm : m ∈ s.tasks)
    (ht : t ∈ s.head m) : s.krefPutSample t = s.unref t := by
  rw [State.unref]
  split_ifs with href
  · exact h.krefPutSample_last hm ht href
  · have hne : s.samples.refs t - 1 ≠ 0 := fun hzero =>
      href ((Int32.sub_eq_iff_eq_add.mp hzero).trans (Int32.zero_add 1))
    rw [State.krefPutSample, put_of_mem (h.samples m hm t ht), decide_eq_false hne]
    rfl

theorem Allocated.unref {s : State} (h : Allocated s) (t : Addr) : Allocated (s.unref t) := by
  rw [State.unref]
  split_ifs
  · exact h.dropped t
  · exact ⟨h.monitors, h.samples⟩

theorem Counted.unref {mref tref : Addr → Int32} {s : State} (h : Counted mref tref s) {t : Addr}
    (ht : t ∈ s.samples.live) :
    Counted mref (Function.update tref t (tref t - 1)) (s.unref t) := by
  have href := h.tref t ht
  rw [State.unref, href]
  split_ifs
  · have hdropped := h.dropped ht
    refine { hdropped with
      monitors := hdropped.monitors
      samples := hdropped.samples
      tref := fun x hx => ?_ }
    rw [Function.update_of_ne (Finset.mem_erase.mp hx).1]
    exact hdropped.tref x hx
  · exact h.setTref t (tref t - 1)

section UnrefAll

variable (s : State) (ts : List Addr)

theorem unrefAll_append (us : List Addr) :
    s.unrefAll (ts ++ us) = (s.unrefAll ts).unrefAll us := List.foldl_append

theorem unrefAll_tasks : (s.unrefAll ts).tasks = s.tasks := by
  induction ts generalizing s with
  | nil => rfl
  | cons t ts ih => rw [unrefAll_cons, ih, unref_tasks]

theorem unrefAll_monitors : (s.unrefAll ts).monitors = s.monitors := by
  induction ts generalizing s with
  | nil => rfl
  | cons t ts ih => rw [unrefAll_cons, ih, unref_monitors]

theorem unrefAll_withMonitors (monitors : Pool Addr) :
    (s.withMonitors monitors).unrefAll ts = (s.unrefAll ts).withMonitors monitors := by
  induction ts generalizing s with
  | nil => rfl
  | cons t ts ih => rw [unrefAll_cons, unref_withMonitors, ih, unrefAll_cons]

end UnrefAll

theorem refs_unrefAll_of_not_mem {s : State} {ts : List Addr} {x : Addr} (hx : x ∉ ts) :
    (s.unrefAll ts).samples.refs x = s.samples.refs x := by
  induction ts generalizing s with
  | nil => rfl
  | cons t ts ih =>
      obtain ⟨hne, hx⟩ := List.ne_and_not_mem_of_not_mem_cons hx
      rw [unrefAll_cons, ih hx, refs_unref_of_ne s t hne]

theorem mem_head_unrefAll_of_not_mem {s : State} {ts : List Addr} {m x : Addr} (hx : x ∉ ts) :
    x ∈ (s.unrefAll ts).head m ↔ x ∈ s.head m := by
  induction ts generalizing s with
  | nil => rfl
  | cons t ts ih =>
      obtain ⟨hne, hx⟩ := List.ne_and_not_mem_of_not_mem_cons hx
      rw [unrefAll_cons, ih hx, mem_head_unref]
      exact and_iff_left (Or.inl hne)

theorem Allocated.unrefAll {s : State} (h : Allocated s) (ts : List Addr) :
    Allocated (s.unrefAll ts) := by
  induction ts generalizing s with
  | nil => exact h
  | cons t ts ih => exact ih (h.unref t)

theorem head_unrefAll_of_disjoint {s : State} {ts : List Addr} {m : Addr}
    (h : ∀ t ∈ ts, t ∉ s.head m) : (s.unrefAll ts).head m = s.head m := by
  induction ts generalizing s with
  | nil => rfl
  | cons t ts ih =>
      have hhead : (s.unref t).head m = s.head m := head_unref_of_not_mem s t (h t (by simp))
      rw [unrefAll_cons, ih, hhead]
      intro x hx
      rw [hhead]
      exact h x (by simp [hx])

theorem Counted.unrefAll {mref tref : Addr → Int32} {s : State} (h : Counted mref tref s)
    {ts : List Addr} (hlive : ∀ t ∈ ts, t ∈ s.samples.live) (hnodup : ts.Nodup) :
    ∃ tref', Counted mref tref' (s.unrefAll ts) := by
  induction ts generalizing s tref with
  | nil => exact ⟨tref, h⟩
  | cons t ts ih =>
      obtain ⟨ht, hnodup⟩ := List.nodup_cons.mp hnodup
      refine ih (h.unref (hlive t (by simp))) (fun x hx => ?_) hnodup
      have hx' : x ∈ s.samples.live := hlive x (by simp [hx])
      rw [State.unref]
      split_ifs
      · exact Finset.mem_erase.mpr ⟨fun hxt => ht (hxt ▸ hx), hx'⟩
      · exact hx'

theorem Counted.head_unrefAll_of_ne {mref tref : Addr → Int32} {s : State}
    (h : Counted mref tref s) {m m' : Addr} (hm : m ∈ s.tasks) (hm' : m' ∈ s.tasks) (hne : m ≠ m') :
    (s.unrefAll (s.head m)).head m' = s.head m' :=
  head_unrefAll_of_disjoint fun t ht ht' => hne (h.one_list m hm m' hm' t ht ht')

theorem unrefAll_eq_droppedAll {s : State} {ts : List Addr} (hnodup : ts.Nodup)
    (href : ∀ t ∈ ts, s.samples.refs t = 1) : s.unrefAll ts = s.droppedAll ts := by
  induction ts generalizing s with
  | nil => rfl
  | cons t ts ih =>
      obtain ⟨ht, hnodup⟩ := List.nodup_cons.mp hnodup
      have hlast : s.unref t = s.dropped t := if_pos (href t (by simp))
      rw [unrefAll_cons, droppedAll_cons, hlast]
      refine ih hnodup fun x hx => ?_
      have hne : x ≠ t := fun hxt => ht (hxt ▸ hx)
      exact (Function.update_of_ne hne _ _).trans (href x (by simp [hx]))

theorem Allocated.scanSamples_eq {s : State} (h : Allocated s) {m : Addr} (hm : m ∈ s.tasks)
    {ts : List Addr} (hts : ts ⊆ s.head m) (hnodup : ts.Nodup) (res : UInt64) :
    scanSamples s ts res = (s.unrefAll ts, res + UInt64.ofNat ts.length) := by
  induction ts generalizing s res with
  | nil => exact congrArg (Prod.mk s) (UInt64.add_zero res).symm
  | cons t ts ih =>
      obtain ⟨ht, hnodup⟩ := List.nodup_cons.mp hnodup
      have htm : t ∈ s.head m := hts (by simp)
      have hrest : ts ⊆ (s.unref t).head m := fun x hx =>
        (mem_head_unref s t).mpr ⟨hts (by simp [hx]), Or.inl fun hxt => ht (hxt ▸ hx)⟩
      have hm' : m ∈ (s.unref t).tasks := by rwa [unref_tasks]
      rw [scanSamples]
      simp only [h.touchSample_eq hm htm, h.krefPutSample_eq hm htm]
      rw [ih (h.unref t) hm' hrest hnodup, unrefAll_cons, List.length_cons,
        UInt64.ofNat_add, UInt64.add_assoc, UInt64.add_comm 1]
      rfl

theorem exitSamples_eq_scanSamples (s : State) (ts : List Addr) (res : UInt64) :
    exitSamples s ts = (scanSamples s ts res).1 := by
  induction ts generalizing s res with
  | nil => rfl
  | cons t ts ih => exact ih _ _

/-! ### A sample added -/

def State.saved (s : State) (tm ts : Addr) (times : Times) : State :=
  { s with
    samples := { s.samples with
      live := insert ts s.samples.live
      refs := Function.update s.samples.refs ts 1 }
    times := Function.update s.times ts times
    head := Function.update s.head tm (s.head tm ++ [ts])
    bent := s.bent.erase ts
    totalCreated := s.totalCreated + 1
    nbSamples := Function.update s.nbSamples tm (s.nbSamples tm + 1) }

theorem saved_head_self (s : State) (tm ts : Addr) (times : Times) :
    (s.saved tm ts times).head tm = s.head tm ++ [ts] := Function.update_self _ _ _

theorem saved_head_of_ne (s : State) {tm m : Addr} (hne : m ≠ tm) (ts : Addr) (times : Times) :
    (s.saved tm ts times).head m = s.head m := Function.update_of_ne hne _ _

theorem mem_saved_head {s : State} {tm ts m t : Addr} {times : Times} :
    t ∈ (s.saved tm ts times).head m ↔ t ∈ s.head m ∨ m = tm ∧ t = ts := by
  by_cases hm : m = tm
  · rw [hm, saved_head_self]
    simp
  · rw [saved_head_of_ne s hm]
    simp [hm]

theorem State.Linked.saved {s : State} (h : s.Linked) (tm ts : Addr) (times : Times) :
    (s.saved tm ts times).Linked := by
  intro m hm t ht
  have hbent : (s.saved tm ts times).bent = s.bent.erase ts := rfl
  rw [hbent, Finset.mem_erase, not_and]
  intro hne
  rcases mem_saved_head.mp ht with ht | ⟨-, hts⟩
  · exact h m hm t ht
  · exact absurd hts hne

theorem Counted.not_mem_head {mref tref : Addr → Int32} {s : State} (h : Counted mref tref s)
    {ts : Addr} (hfresh : ts ∉ s.samples.live) {m : Addr} (hm : m ∈ s.tasks) : ts ∉ s.head m :=
  fun ht => hfresh (h.samples m hm ts ht)

theorem Counted.saved {mref tref : Addr → Int32} {s : State} (h : Counted mref tref s)
    {tm ts : Addr} (htm : tm ∈ s.tasks) (hfresh : ts ∉ s.samples.live) (hone : tref ts = 1)
    (times : Times) : Counted mref tref (s.saved tm ts times) where
  monitors := h.monitors
  samples := by
    intro m hm t ht
    rcases mem_saved_head.mp ht with ht | ⟨_, rfl⟩
    · exact Finset.mem_insert_of_mem (h.samples m hm t ht)
    · exact Finset.mem_insert_self _ _
  tasks_nodup := h.tasks_nodup
  head_nodup := by
    intro m hm
    by_cases hmtm : m = tm
    · rw [hmtm, saved_head_self, List.nodup_append_comm, List.singleton_append, List.nodup_cons]
      exact ⟨h.not_mem_head hfresh htm, h.head_nodup tm htm⟩
    · rw [saved_head_of_ne s hmtm]
      exact h.head_nodup m hm
  one_list := by
    intro m hm m' hm' t ht ht'
    rcases mem_saved_head.mp ht with hold | ⟨hmtm, hts⟩
    · rcases mem_saved_head.mp ht' with hold' | ⟨_, hts'⟩
      · exact h.one_list m hm m' hm' t hold hold'
      · exact absurd (hts' ▸ hold) (h.not_mem_head hfresh hm)
    · rcases mem_saved_head.mp ht' with hold' | ⟨hmtm', _⟩
      · exact absurd (hts ▸ hold') (h.not_mem_head hfresh hm')
      · rw [hmtm, hmtm']
  monitors_listed := h.monitors_listed
  samples_listed := by
    intro t ht
    rcases Finset.mem_insert.mp ht with rfl | ht
    · exact ⟨tm, htm, mem_saved_head.mpr (Or.inr ⟨rfl, rfl⟩)⟩
    · obtain ⟨m, hm, ht⟩ := h.samples_listed t ht
      exact ⟨m, hm, mem_saved_head.mpr (Or.inl ht)⟩
  mref := h.mref
  tref := by
    intro t ht
    by_cases hts : t = ts
    · rw [hts, hone]
      exact Function.update_self _ _ _
    · exact (Function.update_of_ne hts _ _).trans (h.tref t (Finset.mem_of_mem_insert_of_ne ht hts))
  total := by
    have hcard : (s.saved tm ts times).samples.live.card = s.samples.live.card + 1 :=
      Finset.card_insert_of_notMem hfresh
    rw [hcard, Int32.ofNat_add, ← h.total]
    calc s.totalCreated + 1 - s.totalDestroyed
        = s.totalCreated + 1 + -s.totalDestroyed := Int32.sub_eq_add_neg _ _
      _ = s.totalCreated + -s.totalDestroyed + 1 := by
          rw [Int32.add_assoc, Int32.add_comm 1, ← Int32.add_assoc]
      _ = s.totalCreated - s.totalDestroyed + Int32.ofNat 1 := by
          rw [← Int32.sub_eq_add_neg]
          rfl
  monitor_faults := h.monitor_faults
  sample_faults := h.sample_faults

/-! ### A monitor dropped -/

def State.droppedMonitor (s : State) (m : Addr) : State :=
  { s with
    monitors := { s.monitors with
      live := s.monitors.live.erase m
      refs := Function.update s.monitors.refs m 0
      freed := m :: s.monitors.freed }
    tasks := s.tasks.filter (· ≠ m) }

theorem Allocated.krefPutMonitor_last {s : State} (h : Allocated s) {m : Addr} (hm : m ∈ s.tasks)
    (href : s.monitors.refs m = 1) : s.krefPutMonitor m = s.droppedMonitor m := by
  have hlive : m ∈ s.monitors.live := h.monitors m hm
  have hzero : s.monitors.refs m - 1 = 0 := by
    rw [href]
    decide
  rw [State.krefPutMonitor, put_of_mem hlive, hzero]
  set s' : State :=
    { s with monitors := { s.monitors with refs := Function.update s.monitors.refs m 0 } } with hs'
  have hallocated : Allocated s' := ⟨h.monitors, h.samples⟩
  have hfree : s'.monitors.free m
      = { s'.monitors with live := s'.monitors.live.erase m, freed := m :: s'.monitors.freed } :=
    free_of_mem hlive
  simp only [decide_true, if_true]
  rw [State.taskMonitorRelease, hallocated.listDelMonitor_eq hm]
  simp only [hfree]
  rfl

theorem Counted.droppedMonitor {mref tref : Addr → Int32} {s : State} (h : Counted mref tref s)
    {m : Addr} (hempty : s.head m = []) : Counted mref tref (s.droppedMonitor m) where
  monitors := by
    intro m' hm'
    obtain ⟨hm', hne⟩ := List.mem_filter.mp hm'
    exact Finset.mem_erase.mpr ⟨of_decide_eq_true hne, h.monitors m' hm'⟩
  samples := fun m' hm' => h.samples m' (List.mem_filter.mp hm').1
  tasks_nodup := h.tasks_nodup.filter _
  head_nodup := fun m' hm' => h.head_nodup m' (List.mem_filter.mp hm').1
  one_list := fun m₁ hm₁ m₂ hm₂ =>
    h.one_list m₁ (List.mem_filter.mp hm₁).1 m₂ (List.mem_filter.mp hm₂).1
  monitors_listed := by
    intro m' hm'
    obtain ⟨hne, hm'⟩ := Finset.mem_erase.mp hm'
    exact List.mem_filter.mpr ⟨h.monitors_listed m' hm', decide_eq_true hne⟩
  samples_listed := by
    intro t ht
    obtain ⟨m', hm', hhead⟩ := h.samples_listed t ht
    refine ⟨m', List.mem_filter.mpr ⟨hm', decide_eq_true ?_⟩, hhead⟩
    rintro rfl
    rw [hempty] at hhead
    cases hhead
  mref := by
    intro m' hm'
    obtain ⟨hm', hne⟩ := List.mem_filter.mp hm'
    exact (Function.update_of_ne (of_decide_eq_true hne) _ _).trans (h.mref m' hm')
  tref := h.tref
  total := h.total
  monitor_faults := h.monitor_faults
  sample_faults := h.sample_faults

/-- A monitor without samples may as well go after the samples of others. -/
theorem droppedAll_droppedMonitor {s : State} {m : Addr} (hempty : s.head m = []) (ts : List Addr) :
    (s.droppedMonitor m).droppedAll ts = (s.droppedAll ts).droppedMonitor m := by
  induction ts generalizing s with
  | nil => rfl
  | cons t ts ih =>
      have hnext : (s.droppedMonitor m).nextSamples t = s.nextSamples t := by
        rw [State.nextSamples, State.nextSamples, State.droppedMonitor, List.filter_filter]
        congr 2
        apply List.filter_congr
        intro m' _
        by_cases hm' : m' = m
        · simp [hm', hempty]
        · simp [hm']
      have hbent : (s.droppedMonitor m).bentAfter t = s.bentAfter t := by
        rw [State.bentAfter, hnext, State.bentAfter]
        rfl
      have hwithout : (s.droppedMonitor m).samplesWithout t = s.samplesWithout t := rfl
      have hwild : ((s.droppedMonitor m).followPrev t).wild = (s.followPrev t).wild := rfl
      have hfirst : (s.droppedMonitor m).dropped t = (s.dropped t).droppedMonitor m := by
        rw [State.dropped, State.dropped, hbent, hwithout, hwild, State.droppedMonitor,
          State.droppedMonitor]
      have hempty' : (s.dropped t).head m = [] := by
        rw [State.dropped]
        dsimp only
        rw [hempty, List.filter_nil]
      rw [droppedAll_cons, droppedAll_cons, hfirst, ih hempty']

def State.droppedMonitors (s : State) (ms : List Addr) : State := ms.foldl State.droppedMonitor s

section DroppedMonitors

variable (s : State) (ms : List Addr)

theorem droppedMonitors_cons (m : Addr) :
    s.droppedMonitors (m :: ms) = (s.droppedMonitor m).droppedMonitors ms := rfl

theorem droppedMonitors_tasks : (s.droppedMonitors ms).tasks = s.tasks.filter (· ∉ ms) := by
  induction ms generalizing s with
  | nil => exact (List.filter_eq_self.mpr (by simp)).symm
  | cons m ms ih =>
      rw [droppedMonitors_cons, ih, State.droppedMonitor, List.filter_filter]
      refine List.filter_congr fun x _ => ?_
      simp [Bool.and_comm]

theorem droppedMonitors_monitors_freed :
    (s.droppedMonitors ms).monitors.freed = ms.reverse ++ s.monitors.freed := by
  induction ms generalizing s with
  | nil => rfl
  | cons m ms ih =>
      rw [droppedMonitors_cons, ih, List.reverse_cons, List.append_assoc]
      rfl

theorem droppedMonitors_samples : (s.droppedMonitors ms).samples = s.samples := by
  induction ms generalizing s with
  | nil => rfl
  | cons m ms ih => exact ih (s.droppedMonitor m)

end DroppedMonitors

theorem Counted.droppedMonitors {mref tref : Addr → Int32} {s : State} (h : Counted mref tref s)
    {ms : List Addr} (hempty : ∀ m ∈ ms, s.head m = []) :
    Counted mref tref (s.droppedMonitors ms) := by
  induction ms generalizing s with
  | nil => exact h
  | cons m ms ih =>
      obtain ⟨hfirst, hrest⟩ := List.forall_mem_cons.mp hempty
      exact ih (h.droppedMonitor hfirst) hrest

end Pnl.TaskMonitor2
