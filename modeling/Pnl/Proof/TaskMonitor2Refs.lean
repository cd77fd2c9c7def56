import Mathlib.Data.Finset.Card
import Mathlib.Data.List.Nodup
import Pnl.TaskMonitor2

/-!
# References on monitors and samples

What the module keeps in order between its calls, and with other references while one is under way:
the objects on its lists are the allocated ones. As long as they are, no list operation touches a
freed object.
-/

namespace Pnl.TaskMonitor2

open Bytes Krefs

def State.listed (s : State) : List Addr := s.tasks.flatMap s.head

structure Allocated (s : State) : Prop where
  monitors : ∀ m ∈ s.tasks, m ∈ s.monitors.live
  samples : ∀ m ∈ s.tasks, ∀ t ∈ s.head m, t ∈ s.samples.live

/-- Every allocated sample is on exactly one list and once, and every allocated monitor on the list
of monitors; they have the references `mref` and `tref`, and no freed object was touched. -/
structure Counted (mref tref : Addr → Int32) (s : State) : Prop extends Allocated s where
  tasks_nodup : s.tasks.Nodup
  head_nodup : ∀ m ∈ s.tasks, (s.head m).Nodup
  one_list : ∀ m ∈ s.tasks, ∀ m' ∈ s.tasks, ∀ t ∈ s.head m, t ∈ s.head m' → m = m'
  monitors_listed : ∀ m ∈ s.monitors.live, m ∈ s.tasks
  samples_listed : ∀ t ∈ s.samples.live, ∃ m ∈ s.tasks, t ∈ s.head m
  mref : ∀ m ∈ s.tasks, s.monitors.refs m = mref m
  tref : ∀ t ∈ s.samples.live, s.samples.refs t = tref t
  total : s.totalCreated - s.totalDestroyed = Int32.ofNat s.samples.live.card
  monitor_faults : s.monitors.faults = 0
  sample_faults : s.samples.faults = 0

/-- The `list.prev` of every listed sample leads to the one before it. -/
def State.Linked (s : State) : Prop := ∀ m ∈ s.tasks, ∀ t ∈ s.head m, t ∉ s.bent

theorem followPrev_of_notMem {s : State} {t : Addr} (h : t ∉ s.bent) : s.followPrev t = s := by
  rw [State.followPrev, if_neg h]
  rfl

theorem mem_listed {s : State} {t : Addr} : t ∈ s.listed ↔ ∃ m ∈ s.tasks, t ∈ s.head m := by
  rw [State.listed, List.mem_flatMap]

theorem mem_of_mem_neighbours {l : List Addr} {a x : Addr} (h : x ∈ neighbours l a) : x ∈ l := by
  rw [neighbours, List.mem_flatMap] at h
  obtain ⟨pair, hpair, hx⟩ := h
  have hfst : pair.1 ∈ l := (List.of_mem_zip hpair).1
  have hsnd : pair.2 ∈ l := List.mem_of_mem_tail (List.of_mem_zip hpair).2
  split_ifs at hx
  · rw [List.mem_singleton] at hx
    exact hx ▸ hsnd
  · rw [List.mem_singleton] at hx
    exact hx ▸ hfst
  · simp at hx

theorem Counted.mem_listed_iff {mref tref : Addr → Int32} {s : State} (h : Counted mref tref s)
    {t : Addr} : t ∈ s.listed ↔ t ∈ s.samples.live := by
  rw [mem_listed]
  constructor
  · rintro ⟨m, hm, ht⟩
    exact h.samples m hm t ht
  · exact h.samples_listed t

theorem Counted.nodup_flatMap {mref tref : Addr → Int32} {s : State} (h : Counted mref tref s)
    {ms : List Addr} (hms : ms ⊆ s.tasks) (hnodup : ms.Nodup) : (ms.flatMap s.head).Nodup := by
  rw [List.nodup_flatMap]
  refine ⟨fun m hm => h.head_nodup m (hms hm), hnodup.pairwise_of_forall_ne ?_⟩
  intro m hm m' hm' hne t ht ht'
  exact hne (h.one_list m (hms hm) m' (hms hm') t ht ht')

theorem Counted.listed_nodup {mref tref : Addr → Int32} {s : State} (h : Counted mref tref s) :
    s.listed.Nodup :=
  h.nodup_flatMap (List.Subset.refl _) h.tasks_nodup

theorem Counted.length_listed {mref tref : Addr → Int32} {s : State} (h : Counted mref tref s) :
    s.listed.length = s.samples.live.card := by
  rw [← List.toFinset_card_of_nodup h.listed_nodup]
  congr 1
  ext t
  rw [List.mem_toFinset, h.mem_listed_iff]

/-! ### Access -/

section Allocated

variable {s : State} (h : Allocated s)

include h

theorem Allocated.touchMonitor_eq {m : Addr} (hm : m ∈ s.tasks) : s.touchMonitor m = s := by
  rw [State.touchMonitor, touch_of_mem (h.monitors m hm)]

theorem Allocated.touchSample_eq {m t : Addr} (hm : m ∈ s.tasks) (ht : t ∈ s.head m) :
    s.touchSample t = s := by
  rw [State.touchSample, touch_of_mem (h.samples m hm t ht)]

theorem Allocated.listDelSample_eq {m t : Addr} (hm : m ∈ s.tasks) (ht : t ∈ s.head m) :
    s.listDelSample t
      = { s with
          head := fun m => (s.head m).filter (· ≠ t)
          bent := s.bentAfter t
          wild := (s.followPrev t).wild } := by
  have hmonitors : s.monitors.touchAll (s.tasks.filter fun m => t ∈ s.head m) = s.monitors :=
    touchAll_of_subset fun m' hm' => h.monitors m' (List.mem_filter.mp hm').1
  have hsamples : s.samples.touchAll
      ((s.tasks.filter fun m => t ∈ s.head m).flatMap fun m => neighbours (s.head m) t)
      = s.samples := by
    refine touchAll_of_subset fun x hx => ?_
    obtain ⟨m', hm', hx⟩ := List.mem_flatMap.mp hx
    exact h.samples m' (List.mem_filter.mp hm').1 x (mem_of_mem_neighbours hx)
  rw [State.listDelSample, touch_of_mem (h.samples m hm t ht), hmonitors, hsamples]

theorem Allocated.listAddTailSample_eq {ts tm : Addr} (hm : tm ∈ s.tasks)
    (hts : ts ∈ s.samples.live) :
    s.listAddTailSample ts tm
      = { s with
          head := Function.update s.head tm (s.head tm ++ [ts])
          bent := s.bent.erase ts } := by
  have hlast : s.samples.touchAll (s.head tm).getLast?.toList = s.samples := by
    refine touchAll_of_subset fun x hx => h.samples tm hm x ?_
    rw [Option.mem_toList] at hx
    exact List.mem_of_getLast? hx
  rw [State.listAddTailSample, touch_of_mem (h.monitors tm hm), touch_of_mem hts, hlast]

theorem Allocated.listDelMonitor_eq {m : Addr} (hm : m ∈ s.tasks) :
    s.listDelMonitor m = { s with tasks := s.tasks.filter (· ≠ m) } := by
  rw [State.listDelMonitor, touch_of_mem (h.monitors m hm),
    touchAll_of_subset fun x hx => h.monitors x (mem_of_mem_neighbours hx)]

theorem Allocated.listAddTailMonitor_eq {m : Addr} (hm : m ∈ s.monitors.live) :
    s.listAddTailMonitor m = { s with tasks := s.tasks ++ [m] } := by
  have hlast : s.monitors.touchAll s.tasks.getLast?.toList = s.monitors := by
    refine touchAll_of_subset fun x hx => h.monitors x ?_
    rw [Option.mem_toList] at hx
    exact List.mem_of_getLast? hx
  rw [State.listAddTailMonitor, touch_of_mem hm, hlast]

end Allocated

/-! ### A reference taken and given back -/

def State.withMonitors (s : State) (monitors : Pool Addr) : State := { s with monitors := monitors }

theorem krefGetMonitor_eq {s : State} {m : Addr} (hm : m ∈ s.monitors.live)
    (href : s.monitors.refs m ≠ 0) :
    s.krefGetMonitor m = (s.withMonitors (s.monitors.getUnlessZero m).1, true) := by
  rw [State.krefGetMonitor, getUnlessZero_of_mem hm href, State.withMonitors]

/-- Dropping a reference on a monitor that was taken before, whatever was done meanwhile. -/
theorem krefPutMonitor_withMonitors {s : State} {m : Addr} (hm : m ∈ s.monitors.live)
    (href : s.monitors.refs m ≠ 0) :
    (s.withMonitors (s.monitors.getUnlessZero m).1).krefPutMonitor m = s := by
  rw [State.krefPutMonitor, State.withMonitors, put_getUnlessZero hm href]
  rfl

theorem krefGetSample_eq {s : State} {t : Addr} (ht : t ∈ s.samples.live)
    (href : s.samples.refs t ≠ 0) :
    s.krefGetSample t = ({ s with samples := (s.samples.getUnlessZero t).1 }, true) := by
  rw [State.krefGetSample, getUnlessZero_of_mem ht href]

theorem krefPutSample_krefGetSample {s : State} {t : Addr} (ht : t ∈ s.samples.live)
    (href : s.samples.refs t ≠ 0) : (s.krefGetSample t).1.krefPutSample t = s := by
  rw [krefGetSample_eq ht href, State.krefPutSample, put_getUnlessZero ht href]
  rfl

def State.setMref (s : State) (m : Addr) (v : Int32) : State :=
  { s with monitors := { s.monitors with refs := Function.update s.monitors.refs m v } }

def State.setTref (s : State) (t : Addr) (v : Int32) : State :=
  { s with samples := { s.samples with refs := Function.update s.samples.refs t v } }

theorem update_agree {P : Addr → Prop} {f g : Addr → Int32} (h : ∀ x, P x → f x = g x) (a : Addr)
    (v : Int32) (x : Addr) (hx : P x) : Function.update f a v x = Function.update g a v x := by
  by_cases hxa : x = a
  · rw [hxa, Function.update_self, Function.update_self]
  · rw [Function.update_of_ne hxa, Function.update_of_ne hxa, h x hx]

section Counted

variable {mref tref : Addr → Int32} {s : State} (h : Counted mref tref s)

include h

theorem Counted.setMref (m : Addr) (v : Int32) :
    Counted (Function.update mref m v) tref (s.setMref m v) :=
  { h with
    monitors := h.monitors
    samples := h.samples
    mref := update_agree h.mref m v }

theorem Counted.setTref (t : Addr) (v : Int32) :
    Counted mref (Function.update tref t v) (s.setTref t v) :=
  { h with
    monitors := h.monitors
    samples := h.samples
    tref := update_agree h.tref t v }

end Counted

end Pnl.TaskMonitor2
