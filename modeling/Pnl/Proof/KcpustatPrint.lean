import Pnl.KcpustatList
import Pnl.Proof.KcpustatReports

/-!
# `print_stats` on the pointers

On the pointers of a list `print_stats` and `save_stats` do what they do on the sequence of its
samples, and so does the thread that calls them. The loop that frees its cursor goes on with the
sample that was next to it before, which is the first one on the list by then.
-/

namespace Pnl.Kcpustat

open ListHeads Loops Rings Runs Telescopes

open scoped UInt64.CommRing

variable {nrStats : Nat} {myHead : Addr} {m : Memory nrStats} {s : State nrStats}

/-- The pointers lead through the samples of `s`. -/
structure Memory.Represents (m : Memory nrStats) (myHead : Addr) (s : State nrStats) : Prop where
  list : m.links.IsList (m.live myHead) myHead s.myHead
  stat : m.stat = s.stat
  freed : m.freed = s.freed

theorem listHead_represents :
    (Memory.listHead myHead : Memory nrStats).Represents myHead {} := by
  refine ⟨⟨⟨by simp, by simp, ?_⟩, by simp [Memory.live]⟩, rfl, rfl⟩
  rw [Cycle.chain_singleton]
  exact ⟨rfl, rfl⟩

/-! ### Operations -/

theorem mem_live_write {a b : Addr} (hb : b ∈ m.live myHead) (c : Cpustat nrStats) :
    b ∈ (m.write a c).live myHead := by
  rcases hb with hb | hb
  · exact Or.inl hb
  · refine Or.inr ?_
    by_cases hba : b = a <;> simp [Memory.write, hba, hb]

namespace Memory.Represents

variable (h : m.Represents myHead s)

include h

theorem live {a : Addr} (ha : a ∈ s.myHead) : a ∈ s.live := by
  have hlive := h.list.live a (List.mem_cons_of_mem myHead ha)
  have hne : a ≠ myHead := fun heq => h.list.head_notMem (heq ▸ ha)
  have hstat := hlive.resolve_left hne
  rwa [h.stat] at hstat

theorem write (a : Addr) (c : Cpustat nrStats) : (m.write a c).Represents myHead (s.write a c) := by
  refine ⟨h.list.of_live fun b hb => mem_live_write (h.list.live b hb) c, ?_, h.freed⟩
  rw [Memory.write, h.stat]
  rfl

theorem listDel {a : Addr} {as : List Addr} (hhead : s.myHead = a :: as) :
    ∃ m', m.listDel myHead a = some m' ∧ m'.Represents myHead { s with myHead := as } := by
  have hlist : m.links.IsList (m.live myHead) myHead ([] ++ a :: as) := by
    rw [List.nil_append, ← hhead]
    exact h.list
  obtain ⟨links, hrun, hlist'⟩ := hlist.listDel listPoison1 listPoison2
  refine ⟨{ m with links := links }, ?_, hlist', h.stat, h.freed⟩
  rw [Memory.listDel, hrun]
  rfl

theorem kfree {a : Addr} (ha : a ∈ s.live) (hout : a ∉ s.myHead) :
    ∃ m', m.kfree a = some m' ∧ m'.Represents myHead
      { s with stat := Function.update s.stat a none, freed := a :: s.freed } := by
  obtain ⟨stat, hstat⟩ := mem_live_iff.mp ha
  rw [← h.stat] at hstat
  refine ⟨{ m with stat := Function.update m.stat a none, freed := a :: m.freed }, ?_, ?_, ?_, ?_⟩
  · rw [Memory.kfree, hstat]
    rfl
  · apply h.list.of_live
    intro b hb
    rcases h.list.live b hb with heq | hlive
    · exact Or.inl heq
    · rcases List.mem_cons.mp hb with heq | hb
      · exact Or.inl heq
      · have hne : b ≠ a := fun heq => hout (heq ▸ hb)
        refine Or.inr ?_
        dsimp only
        rwa [Function.update_of_ne hne]
  · dsimp only
    rw [h.stat]
  · dsimp only
    rw [h.freed]

end Memory.Represents

/-! ### The first loop -/

theorem mem_live_of_stat {a : Addr} {c : Cpustat nrStats} (hstat : m.stat a = some c) :
    a ∈ m.live myHead :=
  Or.inr (Option.isSome_iff_exists.mpr ⟨c, hstat⟩)

section First

variable {first k : Addr} {ks : List Addr} {s' : State nrStats}

theorem subtractPrev_refines (h : m.Represents myHead s)
    (hahead : Ahead m.links.prev myHead (k :: ks) k)
    (hrun : makeNoncumulative s first (k :: ks) = some s') :
    ∃ m₁ s₁, m.subtractPrev myHead first k = some m₁ ∧ m₁.links = m.links
      ∧ m₁.Represents myHead s₁ ∧ s₁.myHead = s.myHead
      ∧ makeNoncumulative s₁ first ks = some s' := by
  rw [makeNoncumulative] at hrun
  obtain ⟨stat, hstat, hrun⟩ := Option.bind_eq_some_iff.mp hrun
  split_ifs at hrun with hne
  · obtain ⟨prev, hprev, hrun⟩ := Option.bind_eq_some_iff.mp hrun
    obtain ⟨prevStat, hprevStat, hrun⟩ := Option.bind_eq_some_iff.mp hrun
    obtain ⟨ks', rfl⟩ := List.head?_eq_some_iff.mp hprev
    rw [← h.stat] at hstat hprevStat
    refine ⟨m.write k (stat - prevStat), _, ?_, rfl, h.write k (stat - prevStat), rfl, hrun⟩
    rw [Memory.subtractPrev, if_pos hne, getPrev_of_live (mem_live_of_stat hstat), hahead.next.eq]
    simp only [hprevStat, hstat, Option.bind_eq_bind, Option.bind_some]
    rfl
  · exact ⟨m, s, by rw [Memory.subtractPrev, if_neg hne], rfl, h, rfl, hrun⟩

/-- The first loop with the samples `ks` before it, which on the sequence ends in `s'`. -/
structure Backward (myHead first : Addr) (s' : State nrStats) (ks : List Addr)
    (w : Memory nrStats × Addr) : Prop where
  ahead : Ahead w.1.links.prev myHead ks w.2
  run : ∃ s, w.1.Represents myHead s ∧ (∀ k ∈ ks, k ∈ s.myHead)
    ∧ makeNoncumulative s first ks = some s'

theorem noncumulative_refines (h : m.Represents myHead s)
    (hrun : makeNoncumulative s first s.myHead.reverse = some s') :
    ∃ m', Ends (fun w => w.2 ≠ myHead) (noncumulativeTurn myHead first)
        (m, m.links.prev myHead) (m', myHead)
      ∧ m'.Represents myHead s' := by
  have hturn : ∀ k ks w, Backward myHead first s' (k :: ks) w → decide (w.2 ≠ myHead) = true
      ∧ ∃ w', noncumulativeTurn myHead first w = some w' ∧ Backward myHead first s' ks w' := by
    rintro k ks ⟨m, p⟩ ⟨hahead, s, hrep, hmem, hrun⟩
    obtain rfl : p = k := hahead.eq
    obtain ⟨m₁, s₁, hbody, hlinks, hrep₁, hhead₁, hrun₁⟩ := subtractPrev_refines hrep hahead hrun
    have hp : p ∈ m₁.live myHead := by
      apply hrep₁.list.live
      rw [hhead₁]
      exact List.mem_cons_of_mem myHead (hmem p List.mem_cons_self)
    refine ⟨decide_eq_true hahead.ne_last, (m₁, m.links.prev p), ?_, ?_, s₁, hrep₁, ?_, hrun₁⟩
    · rw [noncumulativeTurn, hbody, Option.bind_eq_bind, Option.bind_some, getPrev_of_live hp,
        hlinks]
      rfl
    · rw [hlinks]
      exact hahead.next
    · intro k hk
      rw [hhead₁]
      exact hmem k (List.mem_cons_of_mem p hk)
  have hstart : Backward myHead first s' s.myHead.reverse (m, m.links.prev myHead) :=
    ⟨h.list.backward, s, h, fun k hk => List.mem_reverse.mp hk, hrun⟩
  obtain ⟨⟨m', p⟩, hreaches, hahead, s₁, hrep, -, hend⟩ := exists_reaches hturn hstart
  obtain rfl : p = myHead := hahead.eq_last
  obtain rfl : s₁ = s' := Option.some.inj hend
  exact ⟨m', hreaches.ends (by simp), hrep⟩

end First

/-! ### The second loop -/

section Second

variable {ks : List Addr} {r : State nrStats × Cpustat nrStats × Int32}

/-- The second loop with the samples `ks` left, which on their sequence ends in `r`. The cursor is
always at the first of them. -/
structure Forward (myHead : Addr) (r : State nrStats × Cpustat nrStats × Int32) (ks : List Addr)
    (w : Summing nrStats) : Prop where
  k : w.k = w.memory.links.next myHead
  n : w.n = w.memory.links.next w.k
  run : ∃ s, w.memory.Represents myHead s ∧ s.myHead = ks ∧ sumStats s ks w.sum w.nr = some r

/-- Taking the first sample out and freeing it. -/
theorem free_first_refines (h : m.Represents myHead s) {a : Addr} (hhead : s.myHead = a :: ks) :
    ∃ m₁ m₂ s₁ s₂, m.listDel myHead a = some m₁ ∧ m₁.kfree a = some m₂ ∧ s.listDel a = some s₁
      ∧ s₁.kfree a = some s₂ ∧ m₂.Represents myHead s₂ ∧ s₂.myHead = ks := by
  have hlive : ∀ b ∈ s.myHead, b ∈ s.live := fun b hb => h.live hb
  have ha : a ∈ s.myHead := by simp [hhead]
  have hnodup := (List.nodup_cons.mp h.list.nodup).2
  rw [hhead, List.nodup_cons] at hnodup
  obtain ⟨m₁, hdel, hrep₁⟩ := h.listDel hhead
  obtain ⟨m₂, hfree, hrep₂⟩ := hrep₁.kfree (a := a) (hlive a ha) hnodup.1
  exact ⟨m₁, m₂, _, _, hdel, hfree, listDel_of_head hhead hlive, kfree_of_live (hlive a ha), hrep₂,
    rfl⟩

theorem sum_refines (h : m.Represents myHead s) {sum : Cpustat nrStats} {nr : Int32}
    (hrun : sumStats s s.myHead sum nr = some r) :
    ∃ w, Ends (fun w => w.k ≠ myHead) (sumTurn myHead)
        { memory := m, k := m.links.next myHead, n := m.links.next (m.links.next myHead),
          sum := sum, nr := nr } w
      ∧ w.memory.Represents myHead r.1 ∧ w.sum = r.2.1 ∧ w.nr = r.2.2 := by
  have hturn : ∀ a ks w, Forward myHead r (a :: ks) w → decide (w.k ≠ myHead) = true
      ∧ ∃ w', sumTurn myHead w = some w' ∧ Forward myHead r ks w' := by
    rintro a ks ⟨m, p, n, sum, nr⟩ ⟨hp, hn, s, hrep, hhead, hrun⟩
    dsimp only at hp hn hrep hrun
    have hahead := hrep.list.forward
    rw [hhead, ← hp] at hahead
    obtain rfl : p = a := hahead.eq
    obtain ⟨m₁, m₂, s₁, s₂, hdel, hfree, hdel', hfree', hrep₂, hhead₂⟩ :=
      free_first_refines hrep hhead
    have hahead₂ := hrep₂.list.forward
    rw [hhead₂] at hahead₂
    have hnext : n = m₂.links.next myHead := by
      rw [hn]
      exact hahead.next.unique hahead₂
    have hnlive : n ∈ m₂.live myHead := by
      apply hrep₂.list.live
      rw [hhead₂, hnext]
      exact hahead₂.mem
    rw [sumStats] at hrun
    obtain ⟨stat, hstat, hrun⟩ := Option.bind_eq_some_iff.mp hrun
    obtain ⟨-, -, hrun⟩ := Option.bind_eq_some_iff.mp hrun
    simp only [hdel', hfree', Option.bind_eq_bind, Option.bind_some] at hrun
    rw [← hrep.stat] at hstat
    refine ⟨decide_eq_true hahead.ne_last,
      { memory := m₂, k := n, n := m₂.links.next n, sum := sum + stat, nr := nr + 1 }, ?_, hnext,
      rfl, s₂, hrep₂, hhead₂, hrun⟩
    simp only [sumTurn, hstat, hdel, hfree, getNext_of_live hnlive, Option.bind_eq_bind,
      Option.bind_some]
    rfl
  have hstart : Forward myHead r s.myHead
      { memory := m, k := m.links.next myHead, n := m.links.next (m.links.next myHead),
        sum := sum, nr := nr } :=
    ⟨rfl, rfl, s, h, rfl, hrun⟩
  obtain ⟨w, hreaches, hk, -, s', hrep, hhead, hend⟩ := exists_reaches hturn hstart
  have hahead := hrep.list.forward
  rw [hhead, ← hk] at hahead
  obtain rfl := Option.some.inj hend
  exact ⟨w, hreaches.ends (by simp [hahead.eq_last]), hrep, rfl, rfl⟩

end Second

/-! ### The two functions -/

theorem Memory.Represents.listDelInit (h : m.Represents myHead s) :
    ∃ links, m.links.listDelInit (m.live myHead) myHead = some links
      ∧ { m with links := links }.Represents myHead { s with myHead := [] } := by
  obtain ⟨links, hrun, hlist⟩ := h.list.listDelInit
  exact ⟨links, hrun, hlist, h.stat, h.freed⟩

theorem makeNoncumulative_myHead {first : Addr} {ks : List Addr} {s' : State nrStats}
    (hrun : makeNoncumulative s first ks = some s') : s'.myHead = s.myHead := by
  induction ks generalizing s with
  | nil => rw [← Option.some.inj hrun]
  | cons k ks ih =>
      rw [makeNoncumulative] at hrun
      obtain ⟨stat, -, hrun⟩ := Option.bind_eq_some_iff.mp hrun
      split_ifs at hrun with hne
      · obtain ⟨prev, -, hrun⟩ := Option.bind_eq_some_iff.mp hrun
        obtain ⟨prevStat, -, hrun⟩ := Option.bind_eq_some_iff.mp hrun
        have hsame := ih hrun
        exact hsame
      · exact ih hrun

/-- **`print_stats` on the pointers refines `print_stats` on the sequence.** -/
theorem printStats_refines (h : m.Represents myHead s)
    {r : State nrStats × Cpustat nrStats × Int32} (hrun : printStats s = some r) :
    ∃ m', (∃ turns, m.printStats myHead turns = some (m', r.2.1, r.2.2))
      ∧ m'.Represents myHead r.1 := by
  rw [printStats] at hrun
  obtain ⟨first, hfirst, hrun⟩ := Option.bind_eq_some_iff.mp hrun
  obtain ⟨s₁, hrun₁, hrun⟩ := Option.bind_eq_some_iff.mp hrun
  obtain ⟨rest, hhead⟩ := List.head?_eq_some_iff.mp hfirst
  have hahead := h.list.forward
  rw [hhead] at hahead
  obtain ⟨m₁, ⟨turns₁, hturns₁⟩, hrep₁⟩ := noncumulative_refines h hrun₁
  obtain ⟨m₂, m₃, s₂, s₃, hdel, hfree, hdel', hfree', hrep₃, -⟩ :=
    free_first_refines hrep₁ ((makeNoncumulative_myHead hrun₁).trans hhead)
  simp only [hdel', hfree', Option.bind_eq_bind, Option.bind_some] at hrun
  obtain ⟨r', hsum, hrun⟩ := Option.bind_eq_some_iff.mp hrun
  obtain ⟨s₄, hinit, hrun⟩ := Option.bind_eq_some_iff.mp hrun
  obtain rfl := Option.some.inj hrun
  rw [State.listDelInit] at hinit
  obtain ⟨-, -, hinit⟩ := Option.bind_eq_some_iff.mp hinit
  obtain rfl := Option.some.inj hinit
  obtain ⟨w, ⟨turns₂, hturns₂⟩, hrep, hwsum, hwnr⟩ := sum_refines hrep₃ hsum
  obtain ⟨links, hinit, hrep'⟩ := hrep.listDelInit
  have hfirstLive : m₃.links.next myHead ∈ m₃.live myHead :=
    hrep₃.list.live _ hrep₃.list.forward.mem
  refine ⟨{ w.memory with links := links }, ⟨turns₁ + turns₂, ?_⟩, hrep'⟩
  have hloop₁ := whileLoop_add hturns₁ turns₂
  have hloop₂ := whileLoop_add hturns₂ turns₁
  rw [Nat.add_comm turns₂] at hloop₂
  have hmyHead : ∀ m' : Memory nrStats, myHead ∈ m'.live myHead := fun m' => Or.inl rfl
  simp only [Memory.printStats, getNext_of_live (hmyHead _), getPrev_of_live (hmyHead _), hahead.eq,
    hloop₁, hdel, hfree, getNext_of_live hfirstLive, hloop₂, hinit, Option.bind_eq_bind,
    Option.bind_some, hwsum, hwnr]
  rfl

/-- A larger bound changes nothing. -/
theorem printStats_add {turns : Nat} {r : Memory nrStats × Cpustat nrStats × Int32}
    (h : m.printStats myHead turns = some r) (n : Nat) :
    m.printStats myHead (turns + n) = some r := by
  rw [Memory.printStats] at h ⊢
  obtain ⟨first, hfirst, h⟩ := Option.bind_eq_some_iff.mp h
  obtain ⟨k, hk, h⟩ := Option.bind_eq_some_iff.mp h
  obtain ⟨⟨m₁, p⟩, hloop₁, h⟩ := Option.bind_eq_some_iff.mp h
  obtain ⟨m₂, hdel, h⟩ := Option.bind_eq_some_iff.mp h
  obtain ⟨m₃, hfree, h⟩ := Option.bind_eq_some_iff.mp h
  obtain ⟨k₂, hk₂, h⟩ := Option.bind_eq_some_iff.mp h
  obtain ⟨n₂, hn₂, h⟩ := Option.bind_eq_some_iff.mp h
  obtain ⟨w, hloop₂, h⟩ := Option.bind_eq_some_iff.mp h
  simp only [hfirst, hk, whileLoop_add hloop₁ n, hdel, hfree, hk₂, hn₂, whileLoop_add hloop₂ n,
    Option.bind_eq_bind, Option.bind_some]
  exact h

/-- What `print_stats` does is the same for every bound that is large enough. -/
theorem printStats_unique {turns turns' : Nat} {r r' : Memory nrStats × Cpustat nrStats × Int32}
    (h : m.printStats myHead turns = some r) (h' : m.printStats myHead turns' = some r') :
    r = r' := by
  have hr := printStats_add h turns'
  have hr' := printStats_add h' turns
  rw [Nat.add_comm, hr] at hr'
  exact Option.some.inj hr'

/-- **`save_stats` on the pointers refines `save_stats` on the sequence.** -/
theorem saveStats_refines (h : m.Represents myHead s) {kzalloc : Option Addr}
    (hfresh : ∀ a ∈ kzalloc, a ∉ m.live myHead)
    {kcpustatCpu : Fin nrStats → List (Cpustat nrStats)} {r : State nrStats × Int32}
    (hrun : saveStats s kzalloc kcpustatCpu = some r) :
    ∃ m', m.saveStats myHead kzalloc kcpustatCpu = some (m', r.2) ∧ m'.Represents myHead r.1 := by
  cases kzalloc with
  | none =>
      obtain rfl := Option.some.inj hrun
      exact ⟨m, rfl, h⟩
  | some a =>
      have hnew := hfresh a rfl
      have hne : ∀ b ∈ myHead :: s.myHead, b ≠ a := fun b hb heq =>
        hnew (heq ▸ h.list.live b hb)
      set m₁ := (m.kzalloc a).write a (sumCpus kcpustatCpu) with hm₁
      have hstat : m₁.stat = (s.write a (sumCpus kcpustatCpu)).stat := by
        rw [hm₁, Memory.write, Memory.kzalloc, State.write, ← h.stat]
        exact Function.update_idem _ _ _
      have hlive : a ∈ m₁.live myHead := Or.inr (by simp [hm₁, Memory.write])
      have hlist : m₁.links.IsList (m₁.live myHead) myHead s.myHead := by
        refine ⟨?_, fun b hb => ?_⟩
        · apply isRing_congr h.list.ring
          intro b hb
          have hba := hne b (Cycle.mem_coe_iff.mp hb)
          exact ⟨Function.update_of_ne hba _ _, Function.update_of_ne hba _ _⟩
        · rcases h.list.live b hb with heq | hb'
          · exact Or.inl heq
          · refine Or.inr ?_
            rw [hstat, write_stat, if_neg (hne b hb), ← h.stat]
            exact hb'
      obtain ⟨links, hadd, hlist'⟩ := hlist.listAddTail hlive fun hmem => hne a hmem rfl
      rw [saveStats, State.listAddTail] at hrun
      obtain ⟨s₁, hs₁, hrun⟩ := Option.bind_eq_some_iff.mp hrun
      obtain ⟨-, -, hs₁⟩ := Option.bind_eq_some_iff.mp hs₁
      obtain rfl := Option.some.inj hs₁
      obtain rfl := Option.some.inj hrun
      refine ⟨{ m₁ with links := links }, ?_, hlist', hstat, h.freed⟩
      have hzero : (m.kzalloc a).stat a = some fun _ => 0 := Function.update_self _ _ _
      rw [Memory.saveStats]
      simp only [hzero, Option.bind_eq_bind, Option.bind_some]
      change (m₁.links.listAddTail (m₁.live myHead) a myHead).bind _ = _
      rw [hadd]
      rfl

/-! ### The thread -/

/-- The thread on the pointers is where the thread on the sequence is. -/
structure PointerThread.Refines (t' : PointerThread nrStats) (myHead : Addr) (t : Thread nrStats) :
    Prop where
  memory : t'.memory.Represents myHead t.state
  n : t'.n = t.n
  sums : t'.sums = t.sums
  returned : t'.returned = t.returned

theorem start_refines : (PointerThread.start myHead : PointerThread nrStats).Refines myHead {} :=
  ⟨listHead_represents, rfl, rfl, rfl⟩

/-- Nothing comes after undefined behaviour. -/
theorem final_none {p : Params} (iterations : List (Iteration nrStats)) :
    final (iterate p) (none : Option (Thread nrStats)) iterations = none := by
  induction iterations with
  | nil => rfl
  | cons i iterations ih => exact ih

/-- `kzalloc` never returns the static variable. -/
def Iteration.Apart (myHead : Addr) (i : Iteration nrStats) : Prop := ∀ a ∈ i.kzalloc, a ≠ myHead

theorem iterate_refines {t' : PointerThread nrStats} {t u : Thread nrStats}
    (h : t'.Refines myHead t) {p : Params} {i : Iteration nrStats} (hfresh : i.Allowed (some t))
    (hapart : i.Apart myHead) (hrun : t.iterate p i = some u) :
    ∃ u', (∃ turns, ∀ more, t'.iterate myHead p (turns + more) i = some u')
      ∧ u'.Refines myHead u := by
  by_cases hreturned : t.returned.isSome
  · rw [Thread.iterate, if_pos hreturned] at hrun
    obtain rfl := Option.some.inj hrun
    refine ⟨t', ⟨0, fun more => ?_⟩, h⟩
    rw [PointerThread.iterate, if_pos (h.returned ▸ hreturned)]
  · have hreturned' : ¬ t'.returned.isSome := h.returned ▸ hreturned
    rw [Thread.iterate, if_neg hreturned] at hrun
    obtain ⟨⟨s, err⟩, hsave, hrun⟩ := Option.bind_eq_some_iff.mp hrun
    have hnew : ∀ a ∈ i.kzalloc, a ∉ t'.memory.live myHead := by
      rintro a ha (heq | hlive)
      · exact hapart a ha heq
      · rw [h.memory.stat] at hlive
        exact hfresh t rfl a ha hlive
    obtain ⟨m, hsave', hrep⟩ := saveStats_refines h.memory hnew hsave
    dsimp only at hrun hsave' hrep
    simp only [PointerThread.iterate, if_neg hreturned', hsave', Option.bind_eq_bind,
      Option.bind_some, h.n, h.sums]
    by_cases herr : err ≠ 0
    · rw [if_pos herr] at hrun
      obtain rfl := Option.some.inj hrun
      simp only [if_pos herr]
      exact ⟨_, ⟨0, fun _ => rfl⟩, ⟨hrep, rfl, rfl, rfl⟩⟩
    · by_cases hzero : p.frequency = 0 ∨ p.period = 0
      · rw [if_neg herr, if_pos hzero] at hrun
        contradiction
      · rw [if_neg herr, if_neg hzero] at hrun
        simp only [if_neg herr, if_neg hzero]
        by_cases hprints : (t.n + 1).toUInt32 % p.period = 0
        · rw [if_pos hprints] at hrun
          obtain ⟨⟨s', sum, nr⟩, hprint, hrun⟩ := Option.bind_eq_some_iff.mp hrun
          obtain rfl := Option.some.inj hrun
          obtain ⟨m', ⟨turns, hprint'⟩, hrep'⟩ := printStats_refines hrep hprint
          refine ⟨{ t' with memory := m', n := t.n + 1, sums := t.sums ++ [sum] },
            ⟨turns, fun more => ?_⟩, ⟨hrep', rfl, rfl, h.returned⟩⟩
          rw [if_pos hprints, printStats_add hprint' more]
          rfl
        · rw [if_neg hprints] at hrun
          obtain rfl := Option.some.inj hrun
          simp only [if_neg hprints]
          exact ⟨_, ⟨0, fun _ => rfl⟩, ⟨hrep, rfl, rfl, h.returned⟩⟩

theorem final_refines {p : Params} {iterations : List (Iteration nrStats)}
    {t' : PointerThread nrStats} {t u : Thread nrStats} (h : t'.Refines myHead t)
    (hfresh : StepsMeet (iterate p) (fun t i => i.Allowed t) (some t) iterations)
    (hapart : ∀ i ∈ iterations, i.Apart myHead)
    (hrun : final (iterate p) (some t) iterations = some u) :
    ∃ u', (∃ turns, ∀ more,
        final (iteratePointers myHead p (turns + more)) (some t') iterations = some u')
      ∧ u'.Refines myHead u := by
  induction iterations generalizing t t' with
  | nil =>
      obtain rfl := Option.some.inj hrun
      exact ⟨t', ⟨0, fun _ => rfl⟩, h⟩
  | cons i iterations ih =>
      have hfirst : final (iterate p) (iterate p (some t) i) iterations = some u := hrun
      cases hstep : t.iterate p i with
      | none =>
          have hlost : iterate p (some t) i = none := hstep
          rw [hlost, final_none] at hfirst
          contradiction
      | some v =>
          have hnext : iterate p (some t) i = some v := hstep
          rw [hnext] at hfirst
          obtain ⟨v', ⟨turns₁, hturns₁⟩, hv⟩ :=
            iterate_refines h hfresh.1 (hapart i List.mem_cons_self) hstep
          obtain ⟨u', ⟨turns₂, hturns₂⟩, hu⟩ := ih hv (hnext ▸ hfresh.2)
            (fun j hj => hapart j (List.mem_cons_of_mem i hj)) hfirst
          refine ⟨u', ⟨turns₁ + turns₂, fun more => ?_⟩, hu⟩
          have hv' := hturns₁ (turns₂ + more)
          have hu' := hturns₂ (turns₁ + more)
          rw [← Nat.add_assoc] at hv' hu'
          rw [Nat.add_comm turns₂] at hu'
          rw [final, List.foldl_cons]
          have hpointers : iteratePointers myHead p (turns₁ + turns₂ + more) (some t') i
              = some v' := hv'
          rw [hpointers]
          exact hu'

/-- **The thread on the pointers refines the thread on the sequence**, from `LIST_HEAD(my_head)` on
and over every run, for every bound on the turns that is large enough. -/
theorem run_refines {p : Params} {iterations : List (Iteration nrStats)} {u : Thread nrStats}
    (hfresh : StepsMeet (iterate p) (fun t i => i.Allowed t) (some {}) iterations)
    (hapart : ∀ i ∈ iterations, i.Apart myHead)
    (hrun : final (iterate p) (some {}) iterations = some u) :
    ∃ u', (∃ turns, ∀ more,
        final (iteratePointers myHead p (turns + more)) (some (.start myHead)) iterations = some u')
      ∧ u'.Refines myHead u :=
  final_refines start_refines hfresh hapart hrun

/-! ### A report -/

/-- **`print_stats` telescopes and empties the list.** It adds up the last sample less the first,
frees each sample once and no other, and the next `save_stats` appends to what is left. -/
theorem printStats_telescopes {samples : List Addr}
    (hlist : m.links.IsList (m.live myHead) myHead samples) {first last : Cpustat nrStats}
    (hfirst : (samples.filterMap m.stat).head? = some first)
    (hlast : (samples.filterMap m.stat).getLast? = some last) :
    ∃ m', (∀ r, (∃ turns, m.printStats myHead turns = some r)
        ↔ r = (m', (fun i => last i - first i), Int32.ofNat (samples.length - 1)))
      ∧ (∃ freed, m'.freed = freed ++ m.freed ∧ freed.Perm samples)
      ∧ (∀ a, m'.stat a = if a ∈ samples then none else m.stat a)
      ∧ m'.links.IsList (m'.live myHead) myHead []
      ∧ ∀ a ∉ m'.live myHead, ∀ kcpustatCpu, ∃ m'',
        m'.saveStats myHead (some a) kcpustatCpu = some (m'', 0)
          ∧ m''.links.IsList (m''.live myHead) myHead [a]
          ∧ m''.stat a = some (sumCpus kcpustatCpu) := by
  set s : State nrStats := { myHead := samples, stat := m.stat, freed := m.freed } with hs
  have hrep : m.Represents myHead s := ⟨hlist, rfl, rfl⟩
  have hne : s.myHead ≠ [] := by
    rintro hnil
    rw [hs] at hnil
    dsimp only at hnil
    rw [hnil] at hfirst
    contradiction
  obtain ⟨s', hrun, hhead, hfreed, hstat⟩ :=
    printStats_run (List.nodup_cons.mp hlist.nodup).2 (fun a ha => hrep.live ha) hne
  obtain ⟨m', ⟨turns, hturns⟩, hrep'⟩ := printStats_refines hrep hrun
  have hsum : (increments s.stats).sum = fun i => last i - first i := sum_increments hfirst hlast
  have hlist' := hrep'.list
  rw [hhead] at hlist'
  rw [hsum] at hturns
  refine ⟨m', fun r => ⟨?_, ?_⟩, ⟨samples.reverse, ?_, List.reverse_perm samples⟩, fun a => ?_,
    hlist', fun a ha kcpustatCpu => ?_⟩
  · rintro ⟨turns', hturns'⟩
    exact printStats_unique hturns' hturns
  · rintro rfl
    exact ⟨turns, hturns⟩
  · rw [hrep'.freed, hfreed]
  · rw [hrep'.stat, hstat]
  · have hsave := saveStats_run (s := s') (by simp [hhead]) a kcpustatCpu
    rw [hhead, List.nil_append] at hsave
    obtain ⟨m'', hsave', hrep''⟩ := saveStats_refines hrep' (by simpa using ha) hsave
    refine ⟨m'', hsave', hrep''.list, ?_⟩
    rw [hrep''.stat]
    exact Function.update_self _ _ _

/-- Three samples whose counter went past its end. -/
def threeSamples : Memory 1 where
  links :=
    { next := fun a => if a = 8 then 16 else if a = 16 then 32 else if a = 32 then 48 else 8
      prev := fun a => if a = 8 then 48 else if a = 48 then 32 else if a = 32 then 16 else 8 }
  stat := fun a =>
    if a = 16 then some fun _ => 0xfffffffffffffffe
    else if a = 32 then some fun _ => 0xffffffffffffffff
    else if a = 48 then some fun _ => 1
    else none

theorem threeSamples_isList :
    threeSamples.links.IsList (threeSamples.live 8) 8 [16, 32, 48] := by
  refine ⟨⟨by simp, Cycle.nodup_coe_iff.mpr (by decide), ?_⟩, by decide⟩
  rw [Cycle.chain_coe_cons]
  simp [Linked, threeSamples]

theorem printStats_telescopes_threeSamples :
    ∃ m', (∀ r, (∃ turns, threeSamples.printStats 8 turns = some r)
        ↔ r = (m', (fun _ => 1 - 0xfffffffffffffffe), Int32.ofNat (3 - 1)))
      ∧ (∃ freed, m'.freed = freed ++ threeSamples.freed ∧ freed.Perm [16, 32, 48])
      ∧ (∀ a, m'.stat a = if a ∈ [16, 32, 48] then none else threeSamples.stat a)
      ∧ m'.links.IsList (m'.live 8) 8 []
      ∧ ∀ a ∉ m'.live 8, ∀ kcpustatCpu, ∃ m'',
        m'.saveStats 8 (some a) kcpustatCpu = some (m'', 0)
          ∧ m''.links.IsList (m''.live 8) 8 [a]
          ∧ m''.stat a = some (sumCpus kcpustatCpu) :=
  printStats_telescopes threeSamples_isList rfl rfl

end Pnl.Kcpustat
