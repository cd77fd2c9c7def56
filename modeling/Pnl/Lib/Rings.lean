import Mathlib.Data.List.Cycle
import Mathlib.Data.Set.Insert

/-!
# Rings of pointers

Doubly linked rings are two functions on addresses, and what a program means by them is a set of
cycles. A cell is put in after another one, or taken out, by changing the pointers of two
neighbours. Both neighbours may be the same cell, so the rules below ask for the pointers after the
last write, and never in which order they were written.
-/

namespace Pnl.Rings

variable {α : Type*}

def Linked (next prev : α → α) (a b : α) : Prop := next a = b ∧ prev b = a

structure IsRing (next prev : α → α) (c : Cycle α) : Prop where
  ne_nil : c ≠ Cycle.nil
  nodup : c.Nodup
  chain : c.Chain (Linked next prev)

/-- The live cells are those of the rings, each in one of them. -/
structure Partition (next prev : α → α) (live : Set α) (rings : Set (Cycle α)) : Prop where
  isRing : ∀ c ∈ rings, IsRing next prev c
  covers : ∀ a, a ∈ live ↔ ∃ c ∈ rings, a ∈ c
  eq_of_mem : ∀ c ∈ rings, ∀ c' ∈ rings, ∀ a, a ∈ c → a ∈ c' → c = c'

/-- `new` goes in immediately after `a`; rings without `a` stay. -/
def insertAfter (rings : Set (Cycle α)) (a new : α) : Set (Cycle α) :=
  {c | c ∈ rings ∧ a ∉ c}
    ∪ {c | ∃ l : List α, ((a :: l : List α) : Cycle α) ∈ rings ∧ c = (a :: new :: l : List α)}

/-- `v` goes out from between its neighbours; rings without `v` stay, and `v` alone leaves no
ring. -/
def remove (rings : Set (Cycle α)) (v : α) : Set (Cycle α) :=
  {c | c ∈ rings ∧ v ∉ c}
    ∪ {c | ∃ (p : α) (l : List α), ((p :: v :: l : List α) : Cycle α) ∈ rings
        ∧ c = (p :: l : List α)}

/-! ### Cycles from one of their elements -/

theorem exists_cons_of_mem {c : Cycle α} {a : α} (h : a ∈ c) :
    ∃ l : List α, c = (a :: l : List α) := by
  induction c using Cycle.induction_on with
  | nil => exact absurd h (Cycle.notMem_nil a)
  | cons b m _ =>
      rw [Cycle.mem_coe_iff] at h
      obtain ⟨s, t, hst⟩ := List.append_of_mem h
      refine ⟨t ++ s, ?_⟩
      rw [hst, ← List.cons_append, Cycle.coe_eq_coe]
      exact List.isRotated_append

theorem exists_before_of_mem {c : Cycle α} {v : α} (h : v ∈ c) :
    c = ([v] : List α) ∨ ∃ (p : α) (l : List α), c = (p :: v :: l : List α) := by
  obtain ⟨l, rfl⟩ := exists_cons_of_mem h
  rcases List.eq_nil_or_concat l with rfl | ⟨m, p, rfl⟩
  · exact Or.inl rfl
  · refine Or.inr ⟨p, m, ?_⟩
    rw [Cycle.coe_cons_eq_coe_append (v :: m) p, List.concat_eq_append, List.cons_append]

theorem eq_of_coe_cons_eq {a : α} {l l' : List α} (hnodup : (a :: l).Nodup)
    (h : ((a :: l : List α) : Cycle α) = (a :: l' : List α)) : l = l' := by
  rw [Cycle.coe_eq_coe, List.isRotated_iff_mod] at h
  obtain ⟨n, hn, hrotate⟩ := h
  rw [List.rotate_eq_drop_append_take hn] at hrotate
  have hsplit := List.take_append_drop n (a :: l)
  generalize List.take n (a :: l) = x at hrotate hsplit
  generalize List.drop n (a :: l) = y at hrotate hsplit
  cases x with
  | nil => simp_all
  | cons b x =>
      rw [List.cons_append, List.cons.injEq] at hsplit
      obtain ⟨rfl, rfl⟩ := hsplit
      cases y with
      | nil => simpa using hrotate
      | cons b' y =>
          rw [List.cons_append, List.cons.injEq] at hrotate
          simp [hrotate.1] at hnodup

/-! ### Rings and the pointers that changed -/

section Relink

variable {next prev next' prev' : α → α}

/-- A path keeps its links when the next pointers of its first cells and the previous pointers of
its last cells are what they were. -/
theorem isChain_relink {m : List α} {a : α} (h : (m ++ [a]).IsChain (Linked next prev))
    (hnext : ∀ x ∈ m, next' x = next x) (hprev : ∀ y ∈ (m ++ [a]).tail, prev' y = prev y) :
    (m ++ [a]).IsChain (Linked next' prev') := by
  induction m with
  | nil => exact List.isChain_singleton a
  | cons x m ih =>
      rw [List.cons_append, List.isChain_cons] at h ⊢
      rw [List.cons_append, List.tail_cons] at hprev
      refine ⟨fun y hy => ?_, ?_⟩
      · obtain ⟨hx, hy'⟩ := h.1 y hy
        have hmem : y ∈ m ++ [a] := List.mem_of_mem_head? hy
        exact ⟨(hnext x (by simp)).trans hx, (hprev y hmem).trans hy'⟩
      · refine ih h.2 (fun z hz => hnext z (by simp [hz])) fun y hy => ?_
        exact hprev y (List.mem_of_mem_tail hy)

theorem isRing_congr {c : Cycle α} (h : IsRing next prev c)
    (hsame : ∀ x ∈ c, next' x = next x ∧ prev' x = prev x) : IsRing next' prev' c := by
  refine ⟨h.ne_nil, h.nodup, ?_⟩
  have hchain := h.chain
  induction c using Cycle.induction_on with
  | nil => exact Cycle.Chain.nil _
  | cons a l _ =>
      rw [Cycle.chain_coe_cons, ← List.cons_append] at hchain ⊢
      apply isChain_relink hchain
      · exact fun x hx => (hsame x (Cycle.mem_coe_iff.mpr hx)).1
      · intro y hy
        refine (hsame y (Cycle.mem_coe_iff.mpr ?_)).2
        simpa [or_comm] using hy

theorem isRing_cons {a : α} {l : List α} (h : IsRing next prev (a :: l : List α)) :
    (∃ b m, l ++ [a] = b :: m ∧ next a = b ∧ prev b = a ∧ b ∉ m)
      ∧ (l ++ [a]).IsChain (Linked next prev) ∧ a ∉ l ∧ l.Nodup := by
  have hchain := h.chain
  have hnodup := Cycle.nodup_coe_iff.mp h.nodup
  rw [Cycle.chain_coe_cons, List.isChain_cons] at hchain
  have hperm : (l ++ [a]).Nodup := by
    rw [List.nodup_append_comm]
    exact hnodup
  refine ⟨?_, hchain.2, (List.nodup_cons.mp hnodup).1, (List.nodup_cons.mp hnodup).2⟩
  cases hsplit : l ++ [a] with
  | nil => simp at hsplit
  | cons b m =>
      rw [hsplit] at hchain hperm
      obtain ⟨hnext, hprev⟩ := hchain.1 b (by simp)
      exact ⟨b, m, rfl, hnext, hprev, (List.nodup_cons.mp hperm).1⟩

theorem isRing_insertAfter {a new : α} {l : List α} (h : IsRing next prev (a :: l : List α))
    (hnew : new ∉ a :: l) (hnext : next' a = new) (hnextNew : next' new = next a)
    (hnext' : ∀ x ∈ l, x ≠ a → next' x = next x) (hprevNew : prev' new = a)
    (hprev : prev' (next a) = new) (hprev' : ∀ x ∈ a :: l, x ≠ next a → prev' x = prev x) :
    IsRing next' prev' (a :: new :: l : List α) := by
  obtain ⟨⟨b, m, hsplit, hb, -, hbm⟩, hchain, hal, hl⟩ := isRing_cons h
  simp only [List.mem_cons, not_or] at hnew
  refine ⟨by simp, ?_, ?_⟩
  · rw [Cycle.nodup_coe_iff]
    simp only [List.nodup_cons, List.mem_cons, not_or]
    exact ⟨⟨fun h => hnew.1 h.symm, hal⟩, hnew.2, hl⟩
  · have hpath : (l ++ [a]).IsChain (Linked next' prev') := by
      apply isChain_relink hchain
      · intro x hx
        exact hnext' x hx fun h => hal (h ▸ hx)
      · intro y hy
        have hym : y ∈ m := by simpa [hsplit] using hy
        have hyl : y ∈ l ++ [a] := by simp [hsplit, hym]
        apply hprev' y (by simpa [or_comm] using hyl)
        rw [hb]
        exact fun h => hbm (h ▸ hym)
    rw [Cycle.chain_coe_cons, List.cons_append, List.isChain_cons, List.isChain_cons]
    refine ⟨?_, ?_, hpath⟩
    · intro x hx
      rw [List.head?_cons, Option.mem_some_iff] at hx
      exact hx ▸ ⟨hnext, hprevNew⟩
    · intro x hx
      rw [hsplit, List.head?_cons, Option.mem_some_iff] at hx
      rw [← hx, ← hb]
      exact ⟨hnextNew, hprev⟩

theorem isRing_remove {p v : α} {l : List α} (h : IsRing next prev (p :: v :: l : List α))
    (hnext : next' p = next v) (hnext' : ∀ x ∈ l, x ≠ v → x ≠ p → next' x = next x)
    (hprev : prev' (next v) = p)
    (hprev' : ∀ x ∈ p :: l, x ≠ v → x ≠ next v → prev' x = prev x) :
    IsRing next' prev' (p :: l : List α) := by
  obtain ⟨-, hchain, hp, hnodup⟩ := isRing_cons h
  have hrot : ((p :: v :: l : List α) : Cycle α) = (v :: (l ++ [p]) : List α) :=
    Cycle.coe_cons_eq_coe_append (v :: l) p
  obtain ⟨⟨b, m, hsplit, hb, -, hbm⟩, -, hv, -⟩ := isRing_cons (hrot ▸ h)
  simp only [List.mem_append, List.mem_cons, List.not_mem_nil, or_false, not_or] at hp hv
  obtain ⟨-, hl⟩ := List.nodup_cons.mp hnodup
  rw [List.cons_append, List.isChain_cons] at hchain
  have hbne : (l ++ [p]).head? = some b := by
    cases l with
    | nil =>
        simp only [List.nil_append, List.cons_append, List.cons.injEq] at hsplit
        simp [hsplit.1]
    | cons x l =>
        simp only [List.cons_append, List.cons.injEq] at hsplit
        simp [hsplit.1]
  refine ⟨by simp, ?_, ?_⟩
  · rw [Cycle.nodup_coe_iff, List.nodup_cons]
    exact ⟨hp.2, hl⟩
  · have hpath : (l ++ [p]).IsChain (Linked next' prev') := by
      apply isChain_relink hchain.2
      · intro x hx
        exact hnext' x hx (fun h => hv.1 (h ▸ hx)) fun h => hp.2 (h ▸ hx)
      · intro y hy
        have hyl : y ∈ l ++ [p] := List.mem_of_mem_tail hy
        have hym : y ∈ m := by
          cases hcons : l ++ [p] with
          | nil => simp at hcons
          | cons x t =>
              rw [hcons] at hy hsplit
              simp only [List.cons_append, List.cons.injEq] at hsplit
              rw [← hsplit.2]
              simpa using Or.inl hy
        apply hprev' y (by simpa [or_comm] using hyl)
        · rintro rfl
          simp only [List.mem_append, List.mem_singleton] at hyl
          exact hyl.elim hv.1 hv.2
        · rw [hb]
          exact fun h => hbm (h ▸ hym)
    rw [Cycle.chain_coe_cons, List.isChain_cons]
    refine ⟨?_, hpath⟩
    intro x hx
    rw [hbne, Option.mem_some_iff] at hx
    rw [← hx, ← hb]
    exact ⟨hnext, hprev⟩

end Relink

/-- A ring read from one of its cells on: the next pointers lead through it to the last cell, which
is where the previous pointer of the first one leads. -/
theorem IsRing.path {next prev : α → α} {l : List α} {a q : α}
    (h : IsRing next prev (l ++ [q] : List α)) (ha : (l ++ [q]).head? = some a) :
    (l ++ [q]).IsChain (fun x y => next x = y) ∧ prev a = q ∧ q ∉ l ∧ l.Nodup := by
  have hchain := h.chain
  have hnodup := Cycle.nodup_coe_iff.mp h.nodup
  rw [List.nodup_append_comm, List.singleton_append, List.nodup_cons] at hnodup
  obtain ⟨rest, hsplit⟩ : ∃ rest, l ++ [q] = a :: rest := List.head?_eq_some_iff.mp ha
  rw [hsplit, Cycle.chain_coe_cons, ← List.cons_append, ← hsplit, List.append_assoc,
    List.singleton_append] at hchain
  refine ⟨?_, ?_, hnodup.1, hnodup.2⟩
  · have hinit : (l ++ [q]).IsChain (Linked next prev) := by
      rw [List.append_cons] at hchain
      exact hchain.left_of_append
    exact hinit.imp fun _ _ hlinked => hlinked.1
  · have hlast := hchain.right_of_append
    rw [List.isChain_cons] at hlast
    exact (hlast.1 a (by simp)).2

/-! ### Going around a ring -/

/-- A cursor at `p` that `step` moves on has the cells `rest` before it, and then `last`. -/
structure Ahead (step : α → α) (last : α) (rest : List α) (p : α) : Prop where
  head : (rest ++ [last]).head? = some p
  path : (rest ++ [last]).IsChain fun x y => step x = y
  last : last ∉ rest

section Ahead

variable {step : α → α} {last a p : α} {rest : List α}

theorem Ahead.eq (h : Ahead step last (a :: rest) p) : p = a := by
  have hhead := h.head
  rw [List.cons_append, List.head?_cons] at hhead
  exact (Option.some.inj hhead).symm

theorem Ahead.ne_last (h : Ahead step last (a :: rest) p) : p ≠ last := by
  rw [h.eq]
  exact fun heq => h.last (heq ▸ List.mem_cons_self)

theorem Ahead.eq_last (h : Ahead step last [] p) : p = last := by
  have hhead := h.head
  rw [List.nil_append, List.head?_cons] at hhead
  exact (Option.some.inj hhead).symm

theorem Ahead.mem (h : Ahead step last rest p) : p ∈ last :: rest := by
  have hmem := List.mem_of_head? h.head
  rwa [List.mem_append, List.mem_singleton, or_comm, ← List.mem_cons] at hmem

theorem Ahead.unique {step' : α → α} {p' : α} (h : Ahead step last rest p)
    (h' : Ahead step' last rest p') : p = p' :=
  Option.some.inj (h.head.symm.trans h'.head)

theorem Ahead.next (h : Ahead step last (a :: rest) p) : Ahead step last rest (step p) := by
  have hpath := h.path
  rw [List.cons_append, List.isChain_cons] at hpath
  obtain ⟨hnext, hpath⟩ := hpath
  refine ⟨?_, hpath, fun hmem => h.last (List.mem_cons_of_mem a hmem)⟩
  obtain ⟨b, hb⟩ := Option.isSome_iff_exists.mp
    (List.isSome_head?.mpr (List.append_ne_nil_of_right_ne_nil rest (List.cons_ne_nil last [])))
  rw [hb, h.eq, hnext b hb]

theorem ahead_of_isChain (h : (last :: rest ++ [last]).IsChain fun x y => step x = y)
    (hlast : last ∉ rest) : Ahead step last rest (step last) := by
  rw [List.cons_append, List.isChain_cons] at h
  obtain ⟨hnext, hpath⟩ := h
  obtain ⟨b, hb⟩ := Option.isSome_iff_exists.mp
    (List.isSome_head?.mpr (List.append_ne_nil_of_right_ne_nil rest (List.cons_ne_nil last [])))
  exact ⟨by rw [hb, hnext b hb], hpath, hlast⟩

end Ahead

/-! ### Partitions into rings -/

section Partition

variable {next prev next' prev' : α → α} {live : Set α} {rings : Set (Cycle α)}

theorem partition_empty : Partition next prev ∅ ∅ where
  isRing := by simp
  covers := by simp
  eq_of_mem := by simp

/-- **On the live cells the pointers are inverse to each other.** -/
theorem Partition.inverse (h : Partition next prev live rings) {a : α} (ha : a ∈ live) :
    next a ∈ live ∧ prev a ∈ live ∧ prev (next a) = a ∧ next (prev a) = a := by
  obtain ⟨c, hc, hac⟩ := (h.covers a).mp ha
  have hring := h.isRing c hc
  have hmem : ∀ x, x ∈ c → x ∈ live := fun x hx => (h.covers x).mpr ⟨c, hc, hx⟩
  obtain ⟨l, rfl⟩ := exists_cons_of_mem hac
  obtain ⟨⟨b, m, hsplit, hb, hback, -⟩, -, -, -⟩ := isRing_cons hring
  have hbc : b ∈ l ++ [a] := by simp [hsplit]
  have hnext : next a ∈ live := by
    rw [hb]
    apply hmem
    rw [Cycle.mem_coe_iff]
    simpa [or_comm] using hbc
  obtain ⟨p, hp, hpa⟩ : ∃ p, p ∈ ((a :: l : List α) : Cycle α) ∧ Linked next prev p a := by
    rcases exists_before_of_mem hac with hone | ⟨p, m', hbefore⟩
    · rw [hone] at hring ⊢
      have hchain := hring.chain
      rw [Cycle.chain_singleton] at hchain
      exact ⟨a, by simp, hchain⟩
    · rw [hbefore] at hring ⊢
      have hchain := hring.chain
      rw [Cycle.chain_coe_cons, List.cons_append, List.isChain_cons] at hchain
      exact ⟨p, by simp, hchain.1 a (by simp)⟩
  refine ⟨hnext, ?_, hb ▸ hback, ?_⟩
  · rw [hpa.2]
    exact hmem p hp
  · rw [hpa.2, hpa.1]

theorem Partition.mem_rings_of_next (h : Partition next prev live rings) {c : Cycle α} {a : α}
    (hc : c ∈ rings) (ha : next a ∈ c) (hlive : a ∈ live) : a ∈ c := by
  obtain ⟨c', hc', hac'⟩ := (h.covers a).mp hlive
  obtain ⟨l, rfl⟩ := exists_cons_of_mem hac'
  obtain ⟨⟨b, m, hsplit, hb, -, -⟩, -, -, -⟩ := isRing_cons (h.isRing _ hc')
  have hbc : b ∈ l ++ [a] := by simp [hsplit]
  have hsame : c = (a :: l : List α) := by
    apply h.eq_of_mem c hc _ hc' (next a) ha
    rw [hb, Cycle.mem_coe_iff]
    simpa [or_comm] using hbc
  rw [hsame]
  exact hac'

theorem Partition.mem_rings_of_prev (h : Partition next prev live rings) {c : Cycle α} {a : α}
    (hc : c ∈ rings) (ha : prev a ∈ c) (hlive : a ∈ live) : a ∈ c := by
  obtain ⟨-, hprev, -, hinverse⟩ := h.inverse hlive
  obtain ⟨l, rfl⟩ := exists_cons_of_mem ha
  obtain ⟨⟨b, m, hsplit, hb, -, -⟩, -, -, -⟩ := isRing_cons (h.isRing _ hc)
  have hbc : b ∈ l ++ [prev a] := by simp [hsplit]
  rw [hinverse] at hb
  subst hb
  rw [Cycle.mem_coe_iff]
  simpa [or_comm] using hbc

/-- **Putting a cell in a ring of its own.** -/
theorem Partition.single {new : α} (h : Partition next prev live rings) (hnew : new ∉ live)
    (hnext : next' new = new) (hprev : prev' new = new)
    (hsame : ∀ x ∈ live, next' x = next x ∧ prev' x = prev x) :
    Partition next' prev' (insert new live) (insert (([new] : List α) : Cycle α) rings) := by
  have hlive : ∀ c ∈ rings, ∀ x ∈ c, x ∈ live := fun c hc x hx => (h.covers x).mpr ⟨c, hc, hx⟩
  refine ⟨?_, ?_, ?_⟩
  · rintro c (rfl | hc)
    · refine ⟨by simp, by simp, ?_⟩
      rw [Cycle.chain_singleton]
      exact ⟨hnext, hprev⟩
    · exact isRing_congr (h.isRing c hc) fun x hx => hsame x (hlive c hc x hx)
  · intro x
    constructor
    · rintro (rfl | hx)
      · exact ⟨_, Or.inl rfl, by simp⟩
      · obtain ⟨c, hc, hxc⟩ := (h.covers x).mp hx
        exact ⟨c, Or.inr hc, hxc⟩
    · rintro ⟨c, rfl | hc, hx⟩
      · exact Or.inl (by simpa using hx)
      · exact Or.inr (hlive c hc x hx)
  · rintro c (rfl | hc) c' (rfl | hc') x hx hx'
    · rfl
    · obtain rfl : x = new := by simpa using hx
      exact absurd (hlive c' hc' x hx') hnew
    · obtain rfl : x = new := by simpa using hx'
      exact absurd (hlive c hc x hx) hnew
    · exact h.eq_of_mem c hc c' hc' x hx hx'

/-- **Putting a cell in after a live one.** -/
theorem Partition.insertAfter {a new : α} (h : Partition next prev live rings) (ha : a ∈ live)
    (hnew : new ∉ live) (hnext : next' a = new) (hnextNew : next' new = next a)
    (hnext' : ∀ x ∈ live, x ≠ a → next' x = next x) (hprevNew : prev' new = a)
    (hprev : prev' (next a) = new) (hprev' : ∀ x ∈ live, x ≠ next a → prev' x = prev x) :
    Partition next' prev' (insert new live) (insertAfter rings a new) := by
  have hlive : ∀ c ∈ rings, ∀ x ∈ c, x ∈ live := fun c hc x hx => (h.covers x).mpr ⟨c, hc, hx⟩
  have hfresh : ∀ c ∈ rings, new ∉ c := fun c hc hx => hnew (hlive c hc new hx)
  refine ⟨?_, ?_, ?_⟩
  · rintro c (⟨hc, hac⟩ | ⟨l, hl, rfl⟩)
    · apply isRing_congr (h.isRing c hc)
      intro x hx
      have hxa : x ≠ a := fun heq => hac (heq ▸ hx)
      have hxnext : x ≠ next a := fun heq => hac (h.mem_rings_of_next hc (heq ▸ hx) ha)
      exact ⟨hnext' x (hlive c hc x hx) hxa, hprev' x (hlive c hc x hx) hxnext⟩
    · have hmem : ∀ x ∈ a :: l, x ∈ live := fun x hx => hlive _ hl x (Cycle.mem_coe_iff.mpr hx)
      apply isRing_insertAfter (h.isRing _ hl) (fun hx => hnew (hmem new hx)) hnext hnextNew ?_
        hprevNew hprev fun x hx => hprev' x (hmem x hx)
      exact fun x hx => hnext' x (hmem x (List.mem_cons_of_mem a hx))
  · intro x
    constructor
    · rintro (rfl | hx)
      · obtain ⟨c, hc, hac⟩ := (h.covers a).mp ha
        obtain ⟨l, rfl⟩ := exists_cons_of_mem hac
        exact ⟨_, Or.inr ⟨l, hc, rfl⟩, by simp⟩
      · obtain ⟨c, hc, hxc⟩ := (h.covers x).mp hx
        by_cases hac : a ∈ c
        · obtain ⟨l, rfl⟩ := exists_cons_of_mem hac
          refine ⟨_, Or.inr ⟨l, hc, rfl⟩, ?_⟩
          rw [Cycle.mem_coe_iff, List.mem_cons] at hxc
          rw [Cycle.mem_coe_iff, List.mem_cons, List.mem_cons]
          exact hxc.imp_right Or.inr
        · exact ⟨c, Or.inl ⟨hc, hac⟩, hxc⟩
    · rintro ⟨c, ⟨hc, -⟩ | ⟨l, hl, rfl⟩, hx⟩
      · exact Or.inr (hlive c hc x hx)
      · rw [Cycle.mem_coe_iff, List.mem_cons, List.mem_cons] at hx
        rcases hx with rfl | rfl | hx
        · exact Or.inr ha
        · exact Or.inl rfl
        · exact Or.inr (hlive _ hl x (by simp [hx]))
  · -- a ring with `a` shares no cell with one without it
    have hcross : ∀ c ∈ rings, a ∉ c → ∀ l : List α, ((a :: l : List α) : Cycle α) ∈ rings →
        ∀ x, x ∈ c → x ∉ ((a :: new :: l : List α) : Cycle α) := by
      intro c hc hac l hl x hx hxl
      rw [Cycle.mem_coe_iff, List.mem_cons, List.mem_cons] at hxl
      rcases hxl with rfl | rfl | hxl
      · exact hac hx
      · exact hfresh c hc hx
      · have hsame := h.eq_of_mem c hc _ hl x hx (by simp [hxl])
        exact hac (by simp [hsame])
    rintro c (⟨hc, hac⟩ | ⟨l, hl, rfl⟩) c' (⟨hc', hac'⟩ | ⟨l', hl', rfl⟩) x hx hx'
    · exact h.eq_of_mem c hc c' hc' x hx hx'
    · exact absurd hx' (hcross c hc hac l' hl' x hx)
    · exact absurd hx (hcross c' hc' hac' l hl x hx')
    · have hsame := h.eq_of_mem _ hl _ hl' a (by simp) (by simp)
      rw [eq_of_coe_cons_eq (Cycle.nodup_coe_iff.mp (h.isRing _ hl).nodup) hsame]

/-- **Taking a live cell out.** -/
theorem Partition.remove {v : α} (h : Partition next prev live rings) (hv : v ∈ live)
    (hnext : prev v ≠ v → next' (prev v) = next v)
    (hnext' : ∀ x ∈ live, x ≠ v → x ≠ prev v → next' x = next x)
    (hprev : next v ≠ v → prev' (next v) = prev v)
    (hprev' : ∀ x ∈ live, x ≠ v → x ≠ next v → prev' x = prev x) :
    Partition next' prev' (live \ {v}) (remove rings v) := by
  have hlive : ∀ c ∈ rings, ∀ x ∈ c, x ∈ live := fun c hc x hx => (h.covers x).mpr ⟨c, hc, hx⟩
  have hnot : ∀ (p : α) (l : List α), ((p :: v :: l : List α) : Cycle α) ∈ rings →
      v ∉ p :: l := by
    intro p l hl hmem
    have hnodup := Cycle.nodup_coe_iff.mp (h.isRing _ hl).nodup
    simp only [List.nodup_cons, List.mem_cons, not_or] at hnodup hmem
    exact hmem.elim (fun heq => hnodup.1.1 heq.symm) hnodup.2.1
  refine ⟨?_, ?_, ?_⟩
  · rintro c (⟨hc, hvc⟩ | ⟨p, l, hl, rfl⟩)
    · apply isRing_congr (h.isRing c hc)
      intro x hx
      have hxv : x ≠ v := fun heq => hvc (heq ▸ hx)
      have hxprev : x ≠ prev v := fun heq => hvc (h.mem_rings_of_prev hc (heq ▸ hx) hv)
      have hxnext : x ≠ next v := fun heq => hvc (h.mem_rings_of_next hc (heq ▸ hx) hv)
      exact ⟨hnext' x (hlive c hc x hx) hxv hxprev, hprev' x (hlive c hc x hx) hxv hxnext⟩
    · have hmem : ∀ x ∈ p :: l, x ∈ live := by
        intro x hx
        rw [List.mem_cons] at hx
        exact hlive _ hl x (by simpa using hx.imp_right Or.inr)
      obtain ⟨⟨b, m, hsplit, hb, hback, -⟩, -, hpl, -⟩ := isRing_cons (h.isRing _ hl)
      rw [List.cons_append, List.cons.injEq] at hsplit
      have hpv : prev v = p := by rw [hsplit.1, hback]
      have hnv : next v ≠ v := by
        intro heq
        have hinverse := (h.inverse hv).2.2.1
        rw [heq, hpv] at hinverse
        exact hnot p l hl (by simp [hinverse])
      have hprevne : prev v ≠ v := fun heq => hnot p l hl (by simp [← hpv, heq])
      apply isRing_remove (h.isRing _ hl) (hpv ▸ hnext hprevne) ?_ (hpv ▸ hprev hnv)
        fun x hx => hprev' x (hmem x hx)
      intro x hx hxv hxp
      exact hnext' x (hmem x (List.mem_cons_of_mem p hx)) hxv (hpv ▸ hxp)
  · intro x
    constructor
    · rintro ⟨hx, hxv⟩
      obtain ⟨c, hc, hxc⟩ := (h.covers x).mp hx
      by_cases hvc : v ∈ c
      · rcases exists_before_of_mem hvc with rfl | ⟨p, l, rfl⟩
        · exact absurd (by simpa using hxc) hxv
        · refine ⟨_, Or.inr ⟨p, l, hc, rfl⟩, ?_⟩
          simp only [Cycle.mem_coe_iff, List.mem_cons] at hxc ⊢
          rcases hxc with hxp | hxv' | hxl
          · exact Or.inl hxp
          · exact absurd hxv' hxv
          · exact Or.inr hxl
      · exact ⟨c, Or.inl ⟨hc, hvc⟩, hxc⟩
    · rintro ⟨c, ⟨hc, hvc⟩ | ⟨p, l, hl, rfl⟩, hx⟩
      · exact ⟨hlive c hc x hx, fun heq => hvc (heq ▸ hx)⟩
      · refine ⟨hlive _ hl x ?_, fun heq => hnot p l hl (heq ▸ Cycle.mem_coe_iff.mp hx)⟩
        simp only [Cycle.mem_coe_iff, List.mem_cons] at hx ⊢
        exact hx.imp_right Or.inr
  · have hsub : ∀ (p : α) (l : List α) (x : α), x ∈ ((p :: l : List α) : Cycle α) →
        x ∈ ((p :: v :: l : List α) : Cycle α) := by
      intro p l x hx
      simp only [Cycle.mem_coe_iff, List.mem_cons] at hx ⊢
      exact hx.imp_right Or.inr
    rintro c (⟨hc, hvc⟩ | ⟨p, l, hl, rfl⟩) c' (⟨hc', hvc'⟩ | ⟨p', l', hl', rfl⟩) x hx hx'
    · exact h.eq_of_mem c hc c' hc' x hx hx'
    · have hsame := h.eq_of_mem c hc _ hl' x hx (hsub p' l' x hx')
      exact absurd (by simp [hsame]) hvc
    · have hsame := h.eq_of_mem c' hc' _ hl x hx' (hsub p l x hx)
      exact absurd (by simp [hsame]) hvc'
    · -- both are what is left of the ring of `v`, read from `v` on
      have hsame := h.eq_of_mem _ hl _ hl' v (by simp) (by simp)
      have hrot : ∀ (p : α) (l : List α), ((p :: v :: l : List α) : Cycle α)
          = (v :: (l ++ [p]) : List α) := fun p l => Cycle.coe_cons_eq_coe_append (v :: l) p
      have hnodup := Cycle.nodup_coe_iff.mp (hrot p l ▸ (h.isRing _ hl).nodup)
      rw [hrot, hrot] at hsame
      rw [Cycle.coe_cons_eq_coe_append, Cycle.coe_cons_eq_coe_append,
        eq_of_coe_cons_eq hnodup hsame]

end Partition

/-! ### The ring of one cell -/

section Ring

variable {rings : Set (Cycle α)} {c : Cycle α}

theorem exists_insertAfter (hc : c ∈ rings) {a : α} (ha : a ∈ c) (new : α) :
    ∃ c' ∈ insertAfter rings a new, ∀ x, x ∈ c' ↔ x = new ∨ x ∈ c := by
  obtain ⟨l, rfl⟩ := exists_cons_of_mem ha
  refine ⟨_, Or.inr ⟨l, hc, rfl⟩, fun x => ?_⟩
  simp only [Cycle.mem_coe_iff, List.mem_cons]
  exact or_left_comm

/-- A ring with another cell outlives the removal of `v`. -/
theorem exists_remove (hc : c ∈ rings) (hnodup : c.Nodup) {v w : α} (hv : v ∈ c) (hw : w ∈ c)
    (hne : w ≠ v) : ∃ c' ∈ remove rings v, ∀ x, x ∈ c' ↔ x ∈ c ∧ x ≠ v := by
  rcases exists_before_of_mem hv with rfl | ⟨p, l, rfl⟩
  · simp only [Cycle.mem_coe_iff, List.mem_singleton] at hw
    exact absurd hw hne
  · refine ⟨_, Or.inr ⟨p, l, hc, rfl⟩, fun x => ?_⟩
    rw [Cycle.nodup_coe_iff] at hnodup
    simp only [List.nodup_cons, List.mem_cons, not_or] at hnodup
    simp only [Cycle.mem_coe_iff, List.mem_cons]
    constructor
    · rintro (rfl | hx)
      · exact ⟨Or.inl rfl, hnodup.1.1⟩
      · exact ⟨Or.inr (Or.inr hx), fun heq => hnodup.2.1 (heq ▸ hx)⟩
    · rintro ⟨rfl | rfl | hx, hxv⟩
      · exact Or.inl rfl
      · exact absurd rfl hxv
      · exact Or.inr hx

variable {next prev : α → α} {live : Set α}

/-- The cell before `v` is in the ring of `v`, and another one unless `v` is alone. -/
theorem Partition.prev_mem (h : Partition next prev live rings) (hc : c ∈ rings) {v w : α}
    (hv : v ∈ c) (hw : w ∈ c) (hne : w ≠ v) : prev v ∈ c ∧ prev v ≠ v := by
  have hlive : v ∈ live := (h.covers v).mpr ⟨c, hc, hv⟩
  obtain ⟨-, hprev, -, hforth⟩ := h.inverse hlive
  refine ⟨h.mem_rings_of_next hc (hforth.symm ▸ hv) hprev, fun heq => ?_⟩
  obtain ⟨l, rfl⟩ := exists_cons_of_mem hv
  obtain ⟨⟨b, m, hsplit, hb, -, -⟩, -, hnotin, -⟩ := isRing_cons (h.isRing _ hc)
  rw [heq, hb] at hforth
  cases l with
  | nil => simp [hne] at hw
  | cons x l =>
      rw [List.cons_append, List.cons.injEq] at hsplit
      exact hnotin (by simp [hsplit.1, hforth])

end Ring

/-! ### Rings read as lists

Read from a cell that stays, a ring is a list, and both operations work on the list. -/

section Read

variable [DecidableEq α]

def insertBehind (a new : α) : List α → List α
  | [] => []
  | x :: l => if x = a then x :: new :: l else x :: insertBehind a new l

theorem insertBehind_of_notMem {a new : α} {l : List α} (h : a ∉ l) : insertBehind a new l = l := by
  induction l with
  | nil => rfl
  | cons x l ih =>
      rw [List.mem_cons, not_or] at h
      rw [insertBehind, if_neg (Ne.symm h.1), ih h.2]

theorem insertBehind_append {a new : α} {s t : List α} (h : a ∉ s) :
    insertBehind a new (s ++ a :: t) = s ++ a :: new :: t := by
  induction s with
  | nil => rw [List.nil_append, insertBehind, if_pos rfl, List.nil_append]
  | cons x s ih =>
      rw [List.mem_cons, not_or] at h
      rw [List.cons_append, insertBehind, if_neg (Ne.symm h.1), ih h.2, List.cons_append]

theorem head?_insertBehind (a new : α) (l : List α) : (insertBehind a new l).head? = l.head? := by
  cases l with
  | nil => rfl
  | cons x l =>
      rw [insertBehind]
      split_ifs <;> rfl

theorem head?_erase_of_ne {a v : α} {l : List α} (h : l.head? = some a) (hne : v ≠ a) :
    (l.erase v).head? = some a := by
  obtain ⟨tail, rfl⟩ := List.head?_eq_some_iff.mp h
  rw [List.erase_cons_tail (by simpa using hne.symm), List.head?_cons]

variable {rings : Set (Cycle α)} {l : List α}

omit [DecidableEq α] in
theorem coe_append_comm (s t : List α) : ((s ++ t : List α) : Cycle α) = (t ++ s : List α) :=
  Cycle.coe_eq_coe.mpr List.isRotated_append

theorem coe_insertBehind_mem (hl : (l : Cycle α) ∈ rings) (a new : α) :
    (insertBehind a new l : Cycle α) ∈ insertAfter rings a new := by
  by_cases ha : a ∈ l
  · obtain ⟨s, t, rfl, hs⟩ := List.eq_append_cons_of_mem ha
    rw [insertBehind_append hs]
    refine Or.inr ⟨t ++ s, ?_, ?_⟩
    · rwa [coe_append_comm] at hl
    · rw [coe_append_comm, List.cons_append, List.cons_append]
  · rw [insertBehind_of_notMem ha]
    exact Or.inl ⟨hl, ha⟩

theorem coe_erase_mem (hl : (l : Cycle α) ∈ rings) {a v : α} (ha : l.head? = some a) (hne : v ≠ a) :
    (l.erase v : Cycle α) ∈ remove rings v := by
  by_cases hv : v ∈ l
  · obtain ⟨s, t, rfl, hs⟩ := List.eq_append_cons_of_mem hv
    rw [List.erase_append_right _ hs, List.erase_cons_head]
    rcases List.eq_nil_or_concat s with rfl | ⟨m, p, rfl⟩
    · exact absurd (Option.some.inj ha) hne
    · rw [List.concat_eq_append] at hl ⊢
      refine Or.inr ⟨p, t ++ m, ?_, ?_⟩
      · rwa [List.append_assoc, coe_append_comm] at hl
      · rw [List.append_assoc, coe_append_comm, List.singleton_append, List.cons_append]
  · rw [List.erase_of_not_mem hv]
    exact Or.inl ⟨hl, hv⟩

end Read

end Pnl.Rings
