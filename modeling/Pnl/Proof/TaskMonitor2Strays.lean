import Mathlib.Data.List.Chain
import Pnl.Proof.TaskMonitor2Calls

/-!
# What releasing a sample does to the object behind it

`task_sample_release` decrements half of the `list.prev` of the object behind the sample. If that is
a listed sample, its link is right again as soon as the sample before it is released. So a release
of all samples, each list from its first sample on, follows a wrong link exactly if a sample is
released while the object behind it comes first on a list. It writes to a freed sample exactly if the
object behind a released one has been released before.
-/

namespace Pnl.TaskMonitor2

open Krefs

/-! ### The order of a release -/

/-- When the lists are released one after another, the object behind a released sample is not the
first on a list at that moment. -/
def Straight (lists : List (List Addr)) : Prop :=
  (∀ l ∈ lists, l.IsChain fun t u => u ≠ behind t)
    ∧ lists.Pairwise fun l l' => ∀ t ∈ l, ∀ u ∈ l'.head?, u ≠ behind t

/-- When the samples are released one after another, the object behind a released sample is still
allocated then, or never was. -/
def Unfreed (freed ts : List Addr) : Prop :=
  (∀ t ∈ ts, behind t ∈ ts ∨ behind t ∉ freed) ∧ ts.Pairwise fun t u => t ≠ behind u

/-- Releasing the samples of these monitors follows no wrong link. -/
def State.Aligned (s : State) (ms : List Addr) : Prop := Straight (ms.map s.head)

/-- Releasing the samples of these monitors does no harm to others. -/
def State.Clear (s : State) (ms : List Addr) : Prop :=
  s.Aligned ms ∧ Unfreed s.samples.freed (ms.flatMap s.head)

instance (lists : List (List Addr)) : Decidable (Straight lists) :=
  inferInstanceAs (Decidable (_ ∧ _))

instance (freed ts : List Addr) : Decidable (Unfreed freed ts) :=
  inferInstanceAs (Decidable (_ ∧ _))

instance (s : State) (ms : List Addr) : Decidable (s.Aligned ms) :=
  inferInstanceAs (Decidable (Straight _))

instance (s : State) (ms : List Addr) : Decidable (s.Clear ms) :=
  inferInstanceAs (Decidable (_ ∧ _))

theorem straight_nil : Straight [] := ⟨by simp, .nil⟩

theorem straight_cons {l : List Addr} {lists : List (List Addr)} :
    Straight (l :: lists) ↔ (l.IsChain (fun t u => u ≠ behind t)
      ∧ ∀ t ∈ l, ∀ l' ∈ lists, ∀ u ∈ l'.head?, u ≠ behind t) ∧ Straight lists := by
  rw [Straight, Straight, List.forall_mem_cons, List.pairwise_cons]
  constructor
  · rintro ⟨⟨hchain, hchains⟩, hfirst, hpairs⟩
    exact ⟨⟨hchain, fun t ht l' hl' => hfirst l' hl' t ht⟩, hchains, hpairs⟩
  · rintro ⟨⟨hchain, hfirst⟩, hchains, hpairs⟩
    exact ⟨⟨hchain, hchains⟩, fun l' hl' t ht => hfirst t ht l' hl', hpairs⟩

theorem behind_ne (t : Nat) : behind t ≠ t := by
  intro heq
  have hbehind : ((t + (2 ^ 64 - 24)) % 2 ^ 64 + (72 - 8)) % 2 ^ 64 = t := heq
  omega

/-! ### One sample -/

section Dropped

variable (s : State) (t : Addr) (ts : List Addr)

theorem dropped_bent : (s.dropped t).bent = insert (behind t) (s.bentAfter t) := rfl

theorem dropped_wild : (s.dropped t).wild = s.wild + if t ∈ s.bent then 1 else 0 := rfl

theorem wild_le_droppedAll : s.wild ≤ (s.droppedAll ts).wild := by
  induction ts generalizing s with
  | nil => exact le_rfl
  | cons t ts ih =>
      calc s.wild ≤ (s.dropped t).wild := Nat.le_add_right _ _
        _ ≤ (s.droppedAll (t :: ts)).wild := ih (s.dropped t)

end Dropped

section First

variable {mref tref : Addr → Int32} {s : State} (h : Counted mref tref s) {m : Addr}
  (hm : m ∈ s.tasks) {t : Addr} {ts : List Addr} (hhead : s.head m = t :: ts)

include h hm hhead

theorem Counted.dropped_head_self : (s.dropped t).head m = ts := by
  have hnodup := hhead ▸ h.head_nodup m hm
  have hself : (s.dropped t).head m = (t :: ts).filter (· ≠ t) := congrArg _ hhead
  rw [hself, List.filter_cons_of_neg (by simp), List.filter_eq_self]
  intro x hx
  exact decide_eq_true fun hxt => (List.nodup_cons.mp hnodup).1 (hxt ▸ hx)

/-- The next sample on the list, and only that, gets the link of the first. -/
theorem Counted.mem_nextSamples_first {x : Addr} : x ∈ s.nextSamples t ↔ x ∈ ts.head? := by
  have ht : t ∈ s.head m := hhead ▸ List.mem_cons_self
  have hnext : listNext (s.head m) t = ts.head? := by
    rw [hhead, listNext, List.dropWhile_cons_of_neg (by simp), List.tail_cons]
  rw [State.nextSamples, List.mem_toFinset, List.mem_flatMap]
  constructor
  · rintro ⟨m', hm', hx⟩
    obtain ⟨hm', ht'⟩ := List.mem_filter.mp hm'
    obtain rfl := h.one_list m hm m' hm' t ht (of_decide_eq_true ht')
    rwa [hnext, Option.mem_toList] at hx
  · intro hx
    refine ⟨m, List.mem_filter.mpr ⟨hm, decide_eq_true ht⟩, ?_⟩
    rwa [hnext, Option.mem_toList]

theorem Counted.mem_dropped_bent (hfirst : t ∉ s.bent) {u : Addr} :
    u ∈ (s.dropped t).bent ↔ u = behind t ∨ u ∈ s.bent ∧ u ∉ ts.head? := by
  rw [dropped_bent, Finset.mem_insert, State.bentAfter, if_neg hfirst, Finset.mem_sdiff,
    h.mem_nextSamples_first hm hhead]

end First

/-! ### One list -/

section List

variable {mref tref : Addr → Int32} {m : Addr}

/-- A link that is off stays so while another list is released. -/
theorem Counted.bent_droppedAll {s : State} (h : Counted mref tref s) (hm : m ∈ s.tasks) {u : Addr}
    (hu : u ∉ s.head m) (hbent : u ∈ s.bent) : u ∈ (s.droppedAll (s.head m)).bent := by
  induction hhead : s.head m generalizing s with
  | nil => exact hbent
  | cons t ts ih =>
      have ht : t ∈ s.head m := hhead ▸ List.mem_cons_self
      have hrest : (s.dropped t).head m = ts := h.dropped_head_self hm hhead
      have hother : u ∉ s.nextSamples t := by
        rw [h.mem_nextSamples_first hm hhead]
        exact fun hnext => hu (hhead ▸ List.mem_cons_of_mem t (List.mem_of_head? hnext))
      have hkept : u ∈ (s.dropped t).bent := by
        rw [dropped_bent, State.bentAfter]
        apply Finset.mem_insert_of_mem
        split_ifs
        · exact Finset.mem_union_left _ hbent
        · exact Finset.mem_sdiff.mpr ⟨hbent, hother⟩
      have hu' : u ∉ (s.dropped t).head m := by
        rw [hrest]
        exact fun hmem => hu (hhead ▸ List.mem_cons_of_mem t hmem)
      exact ih (h.dropped (h.samples m hm t ht)) hm hu' hkept hrest

/-- The first sample has a link that is off. -/
theorem wild_lt_droppedAll {s : State} {t : Addr} {ts : List Addr} (hbent : t ∈ s.bent) :
    s.wild < (s.droppedAll (t :: ts)).wild := by
  have hwild : (s.dropped t).wild = s.wild + 1 := by rw [dropped_wild, if_pos hbent]
  calc s.wild < (s.dropped t).wild := by rw [hwild]; exact Nat.lt_succ_self _
    _ ≤ (s.droppedAll (t :: ts)).wild := wild_le_droppedAll (s.dropped t) ts

/-- **Releasing one list**, where `O` are the first samples of others: no wrong link is followed, and
none of theirs is put off, exactly if the object behind a sample is neither the next one nor one of
them. -/
theorem Counted.droppedAll_head_iff {s : State} (h : Counted mref tref s) (hm : m ∈ s.tasks)
    {O : Addr → Prop} (hO : ∀ u, O u → u ∉ s.head m ∧ u ∉ s.bent)
    (hfirst : ∀ t ∈ (s.head m).head?, t ∉ s.bent) :
    ((s.droppedAll (s.head m)).wild = s.wild
        ∧ ∀ u, O u → u ∉ (s.droppedAll (s.head m)).bent)
      ↔ (s.head m).IsChain (fun t u => u ≠ behind t) ∧ ∀ t ∈ s.head m, ∀ u, O u → u ≠ behind t := by
  induction hhead : s.head m generalizing s with
  | nil =>
      refine iff_of_true ⟨rfl, fun u hu => (hO u hu).2⟩ ⟨.nil, by simp⟩
  | cons t ts ih =>
      have ht : t ∈ s.head m := hhead ▸ List.mem_cons_self
      have htfirst : t ∉ s.bent := hfirst t (by rw [hhead]; rfl)
      have hcounted := h.dropped (h.samples m hm t ht)
      have hrest : (s.dropped t).head m = ts := h.dropped_head_self hm hhead
      have hbent := @Counted.mem_dropped_bent mref tref s h m hm t ts hhead htfirst
      have hwild : (s.dropped t).wild = s.wild := by rw [dropped_wild, if_neg htfirst, Nat.add_zero]
      have hO' : ∀ u, O u → u ∉ (s.dropped t).head m := by
        intro u hu
        rw [hrest]
        exact fun hmem => (hO u hu).1 (hhead ▸ List.mem_cons_of_mem t hmem)
      rw [List.isChain_cons, List.forall_mem_cons, droppedAll_cons, ← hwild]
      -- what this release spares
      by_cases hspared : (∀ u ∈ ts.head?, u ≠ behind t) ∧ ∀ u, O u → u ≠ behind t
      · have hnext := ih hcounted hm
          (fun u hu => ⟨hO' u hu, fun hmem => by
            rcases hbent.mp hmem with heq | hold
            · exact hspared.2 u hu heq
            · exact (hO u hu).2 hold.1⟩)
          (fun u hu hmem => by
            rw [hrest] at hu
            rcases hbent.mp hmem with heq | hold
            · exact hspared.1 u hu heq
            · exact hold.2 hu) hrest
        rw [hnext]
        constructor
        · exact fun hright => ⟨⟨hspared.1, hright.1⟩, hspared.2, hright.2⟩
        · exact fun hright => ⟨hright.1.2, hright.2.2⟩
      · refine iff_of_false ?_ fun hright => hspared ⟨hright.1.1, hright.2.1⟩
        rintro ⟨hsame, hothers⟩
        apply hspared
        constructor
        · intro u hu heq
          obtain ⟨us, rfl⟩ : ∃ us, ts = u :: us := List.head?_eq_some_iff.mp hu
          exact (wild_lt_droppedAll (hbent.mpr (Or.inl heq))).ne' hsame
        · intro u hu heq
          have hkept := hcounted.bent_droppedAll hm (hO' u hu) (hbent.mpr (Or.inl heq))
          rw [hrest] at hkept
          exact hothers u hu hkept

end List

/-! ### All lists -/

section Lists

variable {mref tref : Addr → Int32} {ms : List Addr}

theorem droppedAll_append (s : State) (ts us : List Addr) :
    s.droppedAll (ts ++ us) = (s.droppedAll ts).droppedAll us := List.foldl_append

/-- The lists of other monitors while one is released. -/
theorem Counted.flatMap_droppedAll {s : State} (h : Counted mref tref s) {m : Addr}
    (hm : m ∈ s.tasks) (hms : ms ⊆ s.tasks) (hnotin : m ∉ ms) :
    ∀ m' ∈ ms, (s.droppedAll (s.head m)).head m' = s.head m' := by
  intro m' hm'
  exact h.head_droppedAll_of_ne hm (hms hm') fun hmm => hnotin (hmm ▸ hm')

theorem Counted.wild_lt_of_bent {s : State} (h : Counted mref tref s) (hms : ms ⊆ s.tasks)
    (hnodup : ms.Nodup) {m' u : Addr} (hm' : m' ∈ ms) (hfirst : u ∈ (s.head m').head?)
    (hbent : u ∈ s.bent) : s.wild < (s.droppedAll (ms.flatMap s.head)).wild := by
  induction ms generalizing s with
  | nil => cases hm'
  | cons m ms ih =>
      obtain ⟨hnotin, hnodup⟩ := List.nodup_cons.mp hnodup
      obtain ⟨hm, hmsrest⟩ := List.cons_subset.mp hms
      rw [List.flatMap_cons, droppedAll_append]
      rcases List.mem_cons.mp hm' with rfl | hm'
      · obtain ⟨us, hus⟩ := List.head?_eq_some_iff.mp hfirst
        rw [hus]
        exact (wild_lt_droppedAll hbent).trans_le (wild_le_droppedAll _ _)
      · have hheads := h.flatMap_droppedAll hm hmsrest hnotin
        have hne : m ≠ m' := fun hmm => hnotin (hmm ▸ hm')
        have hu : u ∉ s.head m := fun hmem =>
          hne (h.one_list m hm m' (hmsrest hm') u hmem (List.mem_of_head? hfirst))
        have hcounted := h.droppedAll (h.samples m hm) (h.head_nodup m hm)
        have htasks := droppedAll_tasks s (s.head m)
        rw [← List.flatMap_congr hheads]
        refine (wild_le_droppedAll s (s.head m)).trans_lt
          (ih hcounted (htasks ▸ hmsrest) hnodup hm' ?_ (h.bent_droppedAll hm hu hbent))
        rwa [hheads m' hm']

/-- **Releasing all samples of some monitors** follows no wrong link exactly if the lists are
straight. -/
theorem Counted.wild_droppedAll_iff {s : State} (h : Counted mref tref s) (hms : ms ⊆ s.tasks)
    (hnodup : ms.Nodup) (hfirsts : ∀ m ∈ ms, ∀ t ∈ (s.head m).head?, t ∉ s.bent) :
    (s.droppedAll (ms.flatMap s.head)).wild = s.wild ↔ Straight (ms.map s.head) := by
  induction ms generalizing s with
  | nil => exact iff_of_true rfl straight_nil
  | cons m ms ih =>
      have hall : m :: ms ⊆ s.tasks := hms
      obtain ⟨hnotin, hnodup⟩ := List.nodup_cons.mp hnodup
      obtain ⟨hm, hms⟩ := List.cons_subset.mp hms
      obtain ⟨hfirst, hfirsts⟩ := List.forall_mem_cons.mp hfirsts
      have hheads := h.flatMap_droppedAll hm hms hnotin
      have hcounted := h.droppedAll (h.samples m hm) (h.head_nodup m hm)
      have htasks := droppedAll_tasks s (s.head m)
      set next := s.droppedAll (s.head m) with hnext
      set O : Addr → Prop := fun u => ∃ m' ∈ ms, u ∈ (s.head m').head? with hO
      have hothers : ∀ u, O u → u ∉ s.head m ∧ u ∉ s.bent := by
        rintro u ⟨m', hm', hu⟩
        refine ⟨fun hmem => hnotin ?_, hfirsts m' hm' u hu⟩
        rwa [h.one_list m hm m' (hms hm') u hmem (List.mem_of_head? hu)]
      have hlist := h.droppedAll_head_iff hm hothers hfirst
      have hstraight : Straight (m :: ms |>.map s.head)
          ↔ ((s.head m).IsChain (fun t u => u ≠ behind t)
              ∧ ∀ t ∈ s.head m, ∀ u, O u → u ≠ behind t) ∧ Straight (ms.map s.head) := by
        rw [List.map_cons, straight_cons]
        refine and_congr_left fun _ => and_congr_right fun _ => forall₂_congr fun t _ => ?_
        simp only [hO, List.forall_mem_map]
        exact ⟨fun hright u ⟨m', hm', hu⟩ => hright m' hm' u hu,
          fun hright m' hm' u hu => hright u ⟨m', hm', hu⟩⟩
      rw [hstraight, ← hlist, List.flatMap_cons, droppedAll_append, ← hnext]
      rw [← List.flatMap_congr hheads, ← List.map_congr_left hheads]
      have hrest : (∀ u, O u → u ∉ next.bent) →
          ((next.droppedAll (ms.flatMap next.head)).wild = next.wild
            ↔ Straight (ms.map next.head)) := by
        intro hunbent
        refine ih hcounted (htasks ▸ hms) hnodup fun m' hm' t ht => ?_
        rw [hheads m' hm'] at ht
        exact hunbent t ⟨m', hm', ht⟩
      have hle := wild_le_droppedAll s (s.head m)
      have hle' := wild_le_droppedAll next (ms.flatMap next.head)
      rw [← hnext] at hle
      constructor
      · intro hsame
        have hunbent : ∀ u, O u → u ∉ next.bent := by
          rintro u ⟨m', hm', hu⟩ hbent
          rw [← hheads m' hm'] at hu
          have hlt := hcounted.wild_lt_of_bent (htasks ▸ hms) hnodup hm' hu hbent
          omega
        exact ⟨⟨by omega, hunbent⟩, (hrest hunbent).mp (by omega)⟩
      · rintro ⟨⟨hsame, hunbent⟩, hlists⟩
        exact ((hrest hunbent).mpr hlists).trans hsame

end Lists

/-! ### Freed samples -/

theorem freedHits_samplesWithout (s : State) {t u : Addr} (hne : u ≠ t) :
    (s.samplesWithout t).freedHits u = s.samples.freedHits u := by
  simp [Pool.freedHits, State.samplesWithout, hne]

theorem dropped_freedWrites (s : State) (t : Addr) :
    (s.dropped t).freedWrites = s.freedWrites + s.samples.freedHits (behind t) := by
  rw [State.dropped, freedHits_samplesWithout s (behind_ne t)]

theorem freedWrites_le_droppedAll (s : State) (ts : List Addr) :
    s.freedWrites ≤ (s.droppedAll ts).freedWrites := by
  induction ts generalizing s with
  | nil => exact le_rfl
  | cons t ts ih =>
      have hstep : s.freedWrites ≤ (s.dropped t).freedWrites := by
        rw [dropped_freedWrites]
        exact Nat.le_add_right _ _
      exact hstep.trans (ih (s.dropped t))

theorem unfreed_cons {freed ts : List Addr} {t : Addr} (hnotin : t ∉ ts) :
    Unfreed freed (t :: ts) ↔ (behind t ∈ ts ∨ behind t ∉ freed) ∧ Unfreed (t :: freed) ts := by
  rw [Unfreed, Unfreed, List.forall_mem_cons, List.pairwise_cons]
  have hself : behind t ∈ t :: ts ↔ behind t ∈ ts := by simp [behind_ne]
  rw [hself]
  constructor
  · rintro ⟨⟨hfirst, hrest⟩, hbefore, hpairs⟩
    refine ⟨hfirst, fun u hu => ?_, hpairs⟩
    have hne := (hbefore u hu).symm
    rcases hrest u hu with hmem | hmem
    · exact Or.inl ((List.mem_cons.mp hmem).resolve_left hne)
    · exact Or.inr (by simp [hne, hmem])
  · rintro ⟨hfirst, hrest, hpairs⟩
    refine ⟨⟨hfirst, fun u hu => ?_⟩, fun u hu heq => ?_, hpairs⟩
    · rcases hrest u hu with hmem | hmem
      · exact Or.inl (List.mem_cons_of_mem t hmem)
      · exact Or.inr fun hfreed => hmem (List.mem_cons_of_mem t hfreed)
    · rcases hrest u hu with hmem | hmem
      · exact hnotin (heq ▸ hmem)
      · exact hmem (heq ▸ List.mem_cons_self)

/-- **Releasing all samples** writes to none that is freed exactly if the object behind each is still
allocated or never was. -/
theorem freedWrites_droppedAll_iff {s : State} {ts : List Addr} (hnodup : ts.Nodup)
    (hlive : ∀ t, t ∈ s.samples.live ↔ t ∈ ts) :
    (s.droppedAll ts).freedWrites = s.freedWrites ↔ Unfreed s.samples.freed ts := by
  induction ts generalizing s with
  | nil => exact iff_of_true rfl ⟨by simp, .nil⟩
  | cons t ts ih =>
      obtain ⟨hnotin, hnodup⟩ := List.nodup_cons.mp hnodup
      have hlive' : ∀ u, u ∈ (s.dropped t).samples.live ↔ u ∈ ts := by
        intro u
        have hmem : u ∈ (s.dropped t).samples.live ↔ u ≠ t ∧ u ∈ s.samples.live := Finset.mem_erase
        rw [hmem, hlive, List.mem_cons]
        constructor
        · exact fun hu => hu.2.resolve_left hu.1
        · exact fun hu => ⟨fun hut => hnotin (hut ▸ hu), Or.inr hu⟩
      have hfreed : (s.dropped t).samples.freed = t :: s.samples.freed := rfl
      have hrest := ih hnodup hlive'
      have hle := freedWrites_le_droppedAll (s.dropped t) ts
      have hwrites := dropped_freedWrites s t
      have hbehind : behind t ∈ s.samples.live ↔ behind t ∈ ts := by
        rw [hlive, List.mem_cons]
        exact or_iff_right (behind_ne t)
      rw [hfreed] at hrest
      rw [unfreed_cons hnotin, ← hrest, droppedAll_cons, ← hbehind]
      rw [← freedHits_eq_zero]
      omega

/-! ### Nothing astray -/

/-- The lists are as they should be: no wrong link was followed, and nobody else has the head. -/
structure State.Intact (s : State) : Prop where
  wild : s.wild = 0
  headTaken : s.headTaken = false

/-- Besides, no freed sample was written to. -/
structure State.Sound (s : State) : Prop extends s.Intact where
  freedWrites : s.freedWrites = 0

instance (s : State) : Decidable s.Intact :=
  decidable_of_iff (s.wild = 0 ∧ s.headTaken = false)
    ⟨fun h => ⟨h.1, h.2⟩, fun h => ⟨h.wild, h.headTaken⟩⟩

instance (s : State) : Decidable s.Sound :=
  decidable_of_iff (s.Intact ∧ s.freedWrites = 0)
    ⟨fun h => ⟨h.1, h.2⟩, fun h => ⟨h.toIntact, h.freedWrites⟩⟩

theorem droppedAll_headTaken (s : State) (ts : List Addr) :
    (s.droppedAll ts).headTaken = s.headTaken := by
  induction ts generalizing s with
  | nil => rfl
  | cons t ts ih => exact ih (s.dropped t)

section Released

variable {mref tref : Addr → Int32} {s : State} (h : Counted mref tref s) (hlinked : s.Linked)
  {ms : List Addr} (hms : ∀ m, m ∈ ms ↔ m ∈ s.tasks) (hnodup : ms.Nodup)

include h hlinked hms hnodup

/-- **Releasing every sample**, in the order of these monitors. -/
theorem Counted.intact_droppedAll_iff (hintact : s.Intact) :
    (s.droppedAll (ms.flatMap s.head)).Intact ↔ s.Aligned ms := by
  have hsub : ms ⊆ s.tasks := fun m hm => (hms m).mp hm
  have hwild := h.wild_droppedAll_iff hsub hnodup fun m hm t ht =>
    hlinked m (hsub hm) t (List.mem_of_head? ht)
  have hhead := (droppedAll_headTaken s (ms.flatMap s.head)).trans hintact.headTaken
  rw [hintact.wild] at hwild
  rw [State.Aligned, ← hwild]
  exact ⟨fun hright => hright.wild, fun hright => ⟨hright, hhead⟩⟩

theorem Counted.sound_droppedAll_iff (hsound : s.Sound) :
    (s.droppedAll (ms.flatMap s.head)).Sound ↔ s.Clear ms := by
  have hintact := h.intact_droppedAll_iff hlinked hms hnodup hsound.toIntact
  have hsub : ms ⊆ s.tasks := fun m hm => (hms m).mp hm
  have hlive : ∀ t, t ∈ s.samples.live ↔ t ∈ ms.flatMap s.head := by
    intro t
    rw [← h.mem_listed_iff, mem_listed, List.mem_flatMap]
    simp only [hms]
  have hwrites := freedWrites_droppedAll_iff (h.nodup_flatMap hsub hnodup) hlive
  rw [hsound.freedWrites] at hwrites
  rw [State.Clear, ← hintact, ← hwrites]
  exact ⟨fun hright => ⟨hright.toIntact, hright.freedWrites⟩, fun hright => ⟨hright.1, hright.2⟩⟩

end Released

/-! ### What only a release can end -/

/-- Only a release of samples ends `P`, or a store of others into the head of the list. When all
samples are released, in the order of some monitors, `P` is kept exactly under `C`. -/
structure Endures (P : State → Prop) (C : State → List Addr → Prop) : Prop where
  saved : ∀ s tm ts times, P (s.saved tm ts times) ↔ P s
  monitor : ∀ s m, P (s.droppedMonitor m) ↔ P s
  otherStore : ∀ s offset, P (s.otherStore offset) ↔ P s ∧ ¬ HitsHead offset
  back : ∀ s ts, P (s.droppedAll ts) → P s
  released : ∀ {mref tref s}, Counted mref tref s → s.Linked → ∀ {ms : List Addr},
    (∀ m, m ∈ ms ↔ m ∈ s.tasks) → ms.Nodup → P s →
      (P (s.droppedAll (ms.flatMap s.head)) ↔ C s ms)

theorem intact_endures : Endures State.Intact State.Aligned where
  saved s tm ts times := ⟨fun h => ⟨h.wild, h.headTaken⟩, fun h => ⟨h.wild, h.headTaken⟩⟩
  monitor s m := ⟨fun h => ⟨h.wild, h.headTaken⟩, fun h => ⟨h.wild, h.headTaken⟩⟩
  otherStore s offset := by
    have hhead : (s.otherStore offset).headTaken = false ↔ s.headTaken = false ∧ ¬ HitsHead offset := by
      rw [State.otherStore, Bool.or_eq_false_iff, decide_eq_false_iff_not]
    constructor
    · intro h
      obtain ⟨hbefore, hspared⟩ := hhead.mp h.headTaken
      exact ⟨⟨h.wild, hbefore⟩, hspared⟩
    · exact fun h => ⟨h.1.wild, hhead.mpr ⟨h.1.headTaken, h.2⟩⟩
  back s ts h :=
    ⟨Nat.eq_zero_of_le_zero (h.wild ▸ wild_le_droppedAll s ts),
      (droppedAll_headTaken s ts).symm.trans h.headTaken⟩
  released h hlinked _ hms hnodup hintact := h.intact_droppedAll_iff hlinked hms hnodup hintact

theorem sound_endures : Endures State.Sound State.Clear where
  saved s tm ts times := by
    have hintact := intact_endures.saved s tm ts times
    exact ⟨fun h => ⟨hintact.mp h.toIntact, h.freedWrites⟩,
      fun h => ⟨hintact.mpr h.toIntact, h.freedWrites⟩⟩
  monitor s m := by
    have hintact := intact_endures.monitor s m
    exact ⟨fun h => ⟨hintact.mp h.toIntact, h.freedWrites⟩,
      fun h => ⟨hintact.mpr h.toIntact, h.freedWrites⟩⟩
  otherStore s offset := by
    have hintact := intact_endures.otherStore s offset
    constructor
    · intro h
      obtain ⟨hbefore, hspared⟩ := hintact.mp h.toIntact
      exact ⟨⟨hbefore, h.freedWrites⟩, hspared⟩
    · exact fun h => ⟨hintact.mpr ⟨h.1.toIntact, h.2⟩, h.1.freedWrites⟩
  back s ts h :=
    ⟨intact_endures.back s ts h.toIntact,
      Nat.eq_zero_of_le_zero (h.freedWrites ▸ freedWrites_le_droppedAll s ts)⟩
  released h hlinked _ hms hnodup hsound := h.sound_droppedAll_iff hlinked hms hnodup hsound

/-- A scan that may run finds the lists as `C` wants them. -/
def Call.Spares (C : State → List Addr → Prop) (s : State) : Call → Prop
  | .myShrinkScan gfpMask => gfpMask &&& gfpFs = 0 ∨ C s s.tasks
  | _ => True

instance (C : State → List Addr → Prop) [∀ s ms, Decidable (C s ms)] (s : State) :
    (call : Call) → Decidable (call.Spares C s)
  | .myShrinkScan _ => inferInstanceAs (Decidable (_ ∨ _))
  | .saveSample _ _ _ => inferInstanceAs (Decidable True)
  | .myShrinkCount => inferInstanceAs (Decidable True)
  | .sysfsShow _ => inferInstanceAs (Decidable True)
  | .debugfsTaskMonitorShow => inferInstanceAs (Decidable True)

section Step

variable {P : State → Prop} {C : State → List Addr → Prop} (hP : Endures P C) {s : State}
  (h : Accounted s) {call : Call} (hallowed : call.Allowed s)

include hP h hallowed

/-- **A complete call** keeps `P` exactly if it spares the neighbours of what it releases. -/
theorem Endures.step_iff (hs : P s) : P (step s call) ↔ call.Spares C s := by
  have heffect := h.effect hallowed
  generalize step s call = s' at heffect ⊢
  cases heffect with
  | saved contents task htm hfresh => exact iff_of_true ((hP.saved _ _ _ _).mpr hs) trivial
  | refused hmask => exact iff_of_true hs (Or.inl hmask)
  | scanned hmask =>
      have hscan := hP.released h.toCounted h.linked (fun _ => Iff.rfl) h.tasks_nodup hs
      exact hscan.trans (or_iff_right hmask).symm
  | _ => exact iff_of_true hs trivial

/-- What has gone astray stays so. -/
theorem Endures.of_step (hstep : P (step s call)) : P s := by
  have heffect := h.effect hallowed
  generalize step s call = s' at heffect hstep
  cases heffect with
  | saved contents task htm hfresh => exact (hP.saved _ _ _ _).mp hstep
  | scanned hmask => exact hP.back _ _ hstep
  | _ => exact hstep

end Step

end Pnl.TaskMonitor2
