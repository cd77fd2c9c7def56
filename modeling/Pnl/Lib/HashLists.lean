import Mathlib.Data.List.Induction
import Mathlib.Data.List.Nodup
import Mathlib.Logic.Function.Basic

/-!
# Lists that hang on one pointer

The lists of the kernel's hash tables. A head is one pointer to the first node. A node has a pointer
to the next node and points back to the pointer that points to it, in the head or in the node before
it, so a node is taken off its list without a look at the head. A list is given by where it hangs,
and no other pointer leads into it: the way back from a node is unique.
-/

namespace Pnl.HashLists

/-- Where a pointer to a node is. -/
inductive Place (η ν : Type*) where
  | first (h : η)
  | next (n : ν)
deriving DecidableEq

/-- The pointers in memory; `none` is the null pointer. -/
structure Pointers (η ν : Type*) where
  ptr : Place η ν → Option ν
  pprev : ν → Option (Place η ν)

section Access

variable {η ν : Type*} [DecidableEq η] [DecidableEq ν] (l : Pointers η ν) (live : Set (Place η ν))
  [DecidablePred (· ∈ live)]

def Pointers.load (p : Place η ν) : Option (Option ν) :=
  if p ∈ live then some (l.ptr p) else none

def Pointers.store (p : Place η ν) (v : Option ν) : Option (Pointers η ν) :=
  if p ∈ live then some { l with ptr := Function.update l.ptr p v } else none

def Pointers.loadPprev (n : ν) : Option (Option (Place η ν)) :=
  if .next n ∈ live then some (l.pprev n) else none

def Pointers.storePprev (n : ν) (p : Option (Place η ν)) : Option (Pointers η ν) :=
  if .next n ∈ live then some { l with pprev := Function.update l.pprev n p } else none

/-- The way back is written to the node, if there is one. -/
def Pointers.hang (next : Option ν) (p : Option (Place η ν)) : Option (Pointers η ν) :=
  match next with
  | none => some l
  | some m => l.storePprev live m p

variable {l live} {p : Place η ν} {n : ν}

omit [DecidableEq η] [DecidableEq ν] in
theorem load_of_live (hp : p ∈ live) : l.load live p = some (l.ptr p) := if_pos hp

theorem store_of_live (hp : p ∈ live) (v : Option ν) :
    l.store live p v = some { l with ptr := Function.update l.ptr p v } :=
  if_pos hp

omit [DecidableEq η] [DecidableEq ν] in
theorem loadPprev_of_live (hn : .next n ∈ live) : l.loadPprev live n = some (l.pprev n) := if_pos hn

omit [DecidableEq η] in
theorem storePprev_of_live (hn : .next n ∈ live) (q : Option (Place η ν)) :
    l.storePprev live n q = some { l with pprev := Function.update l.pprev n q } :=
  if_pos hn

/-- The pointers after the way back was written to the node, if there is one. -/
def Pointers.hung (l : Pointers η ν) (next : Option ν) (p : Option (Place η ν)) : Pointers η ν :=
  { l with pprev := fun m => if next = some m then p else l.pprev m }

omit [DecidableEq η] in
theorem hang_of_live {next : Option ν} (hnext : ∀ m ∈ next, .next m ∈ live)
    (q : Option (Place η ν)) : l.hang live next q = some (l.hung next q) := by
  cases next with
  | none => rfl
  | some m =>
      rw [Pointers.hang, storePprev_of_live (hnext m rfl)]
      congr
      funext k
      by_cases hk : m = k
      · rw [hk, Function.update_self, if_pos rfl]
      · rw [Function.update_of_ne (Ne.symm hk), if_neg fun heq => hk (Option.some.inj heq)]

omit [DecidableEq η] in
@[simp]
theorem hung_none (q : Option (Place η ν)) : l.hung none q = l := rfl

omit [DecidableEq η] in
theorem pprev_hung {next : Option ν} {m : ν} (hm : next = some m) (q : Option (Place η ν)) :
    (l.hung next q).pprev m = q :=
  if_pos hm

omit [DecidableEq η] in
theorem pprev_hung_of_ne {next : Option ν} {m : ν} (hm : next ≠ some m) (q : Option (Place η ν)) :
    (l.hung next q).pprev m = l.pprev m :=
  if_neg hm

end Access

/-! ### Where a list hangs -/

section Hangs

variable {η ν : Type*} {l l' : Pointers η ν} {p q : Place η ν} {n : ν} {ns xs ys : List ν}

/-- The list of these nodes hangs at `p`. -/
def Hangs (l : Pointers η ν) : Place η ν → List ν → Prop
  | p, [] => l.ptr p = none
  | p, n :: ns => l.ptr p = some n ∧ l.pprev n = some p ∧ Hangs l (.next n) ns

/-- These nodes hang at `p` and one at another, whatever comes after them. -/
def Strung (l : Pointers η ν) : Place η ν → List ν → Prop
  | _, [] => True
  | p, n :: ns => l.ptr p = some n ∧ l.pprev n = some p ∧ Strung l (.next n) ns

/-- Where the next node goes. -/
def endOf : Place η ν → List ν → Place η ν
  | p, [] => p
  | _, n :: ns => endOf (.next n) ns

theorem endOf_concat (p : Place η ν) (xs : List ν) (x : ν) : endOf p (xs ++ [x]) = .next x := by
  induction xs generalizing p with
  | nil => rfl
  | cons y xs ih => exact ih (.next y)

theorem hangs_append : Hangs l p (xs ++ ys) ↔ Strung l p xs ∧ Hangs l (endOf p xs) ys := by
  induction xs generalizing p with
  | nil => exact (and_iff_right trivial).symm
  | cons x xs ih =>
      rw [List.cons_append, Hangs, ih, Strung, endOf]
      simp only [and_assoc]

theorem Hangs.ptr (h : Hangs l p ns) : l.ptr p = ns.head? := by
  cases ns with
  | nil => exact h
  | cons n ns => exact h.1

theorem Hangs.eq {ns' : List ν} (h : Hangs l p ns) (h' : Hangs l p ns') : ns = ns' := by
  induction ns generalizing p ns' with
  | nil =>
      have hnone := h'.ptr
      rw [h.ptr] at hnone
      exact (List.head?_eq_none_iff.mp hnone.symm).symm
  | cons n ns ih =>
      cases ns' with
      | nil =>
          have hnone : l.ptr p = none := h'
          rw [h.1] at hnone
          cases hnone
      | cons n' ns' =>
          have hn : n = n' := Option.some.inj (h.1.symm.trans h'.1)
          subst hn
          rw [ih h.2.2 h'.2.2]

theorem Hangs.nodup (h : Hangs l p ns) : ns.Nodup := by
  induction ns generalizing p with
  | nil => exact List.nodup_nil
  | cons n ns ih =>
      refine List.nodup_cons.mpr ⟨fun hmem => ?_, ih h.2.2⟩
      -- from `n` on the list would be the same again
      obtain ⟨xs, ys, rfl⟩ := List.append_of_mem hmem
      have hagain := (hangs_append.mp h.2.2).2.2.2
      have hlength := congrArg List.length (h.2.2.eq hagain)
      rw [List.length_append, List.length_cons] at hlength
      omega

theorem Hangs.pprev (h : Hangs l p (xs ++ n :: ys)) : l.pprev n = some (endOf p xs) :=
  (hangs_append.mp h).2.2.1

/-- **The way back is unique**: a node is on one list only. -/
theorem Hangs.head_eq {h h' : η} {ns ns' : List ν} (hns : Hangs l (.first h) ns)
    (hns' : Hangs l (.first h') ns') (hn : n ∈ ns) (hn' : n ∈ ns') : h = h' := by
  obtain ⟨xs, ys, rfl⟩ := List.append_of_mem hn
  obtain ⟨xs', ys', rfl⟩ := List.append_of_mem hn'
  clear hn hn'
  induction xs using List.reverseRecOn generalizing n ys xs' ys' with
  | nil =>
      have hfirst := Option.some.inj (hns.pprev.symm.trans hns'.pprev)
      obtain rfl | ⟨zs, z, rfl⟩ := List.eq_nil_or_concat' xs'
      · exact Place.first.inj hfirst
      · rw [endOf_concat] at hfirst
        cases hfirst
  | append_singleton xs x ih =>
      have hback := Option.some.inj (hns.pprev.symm.trans hns'.pprev)
      rw [endOf_concat] at hback
      obtain rfl | ⟨zs, z, rfl⟩ := List.eq_nil_or_concat' xs'
      · cases hback
      · rw [endOf_concat] at hback
        obtain rfl : x = z := Place.next.inj hback
        rw [List.append_assoc] at hns hns'
        exact ih _ hns _ _ hns'

/-! ### Pointers that change -/

theorem Hangs.congr (h : Hangs l p ns) (hp : l'.ptr p = l.ptr p)
    (hsame : ∀ m ∈ ns, l'.ptr (.next m) = l.ptr (.next m) ∧ l'.pprev m = l.pprev m) :
    Hangs l' p ns := by
  induction ns generalizing p with
  | nil => exact hp.trans h
  | cons n ns ih =>
      obtain ⟨hnext, hpprev⟩ := hsame n List.mem_cons_self
      refine ⟨hp.trans h.1, hpprev.trans h.2.1, ?_⟩
      exact ih h.2.2 hnext fun m hm => hsame m (List.mem_cons_of_mem n hm)

/-- The list hangs somewhere else. -/
theorem Hangs.rehang (h : Hangs l p ns) (hq : l'.ptr q = ns.head?)
    (hhead : ∀ m, ns.head? = some m → l'.pprev m = some q)
    (hnext : ∀ m ∈ ns, l'.ptr (.next m) = l.ptr (.next m))
    (hpprev : ∀ m, ns.head? ≠ some m → m ∈ ns → l'.pprev m = l.pprev m) : Hangs l' q ns := by
  cases ns with
  | nil => exact hq
  | cons n ns =>
      refine ⟨hq, hhead n rfl, h.2.2.congr (hnext n List.mem_cons_self) fun m hm => ?_⟩
      have hne : (n :: ns).head? ≠ some m := by
        intro heq
        have hnm : n = m := Option.some.inj heq
        exact (List.nodup_cons.mp h.nodup).1 (hnm ▸ hm)
      exact ⟨hnext m (List.mem_cons_of_mem n hm), hpprev m hne (List.mem_cons_of_mem n hm)⟩

theorem Strung.congr (h : Strung l p xs)
    (hptr : ∀ q ∈ (p :: xs.map .next).dropLast, l'.ptr q = l.ptr q)
    (hpprev : ∀ m ∈ xs, l'.pprev m = l.pprev m) : Strung l' p xs := by
  induction xs generalizing p with
  | nil => trivial
  | cons x xs ih =>
      rw [List.map_cons, List.dropLast_cons_cons] at hptr
      refine ⟨(hptr p List.mem_cons_self).trans h.1,
        (hpprev x List.mem_cons_self).trans h.2.1, ?_⟩
      exact ih h.2.2 (fun q hq => hptr q (List.mem_cons_of_mem p hq))
        fun m hm => hpprev m (List.mem_cons_of_mem x hm)

theorem places_eq (p : Place η ν) (xs : List ν) :
    p :: xs.map .next = (p :: xs.map .next).dropLast ++ [endOf p xs] := by
  induction xs generalizing p with
  | nil => rfl
  | cons x xs ih =>
      rw [List.map_cons, List.dropLast_cons_cons, List.cons_append]
      exact congrArg (List.cons p) (ih (.next x))

variable {h : η}

theorem next_injective : Function.Injective (Place.next : ν → Place η ν) := fun _ _ => Place.next.inj

/-- Up to a place in the list nothing depends on the pointer there, or on a node that comes later. -/
theorem Hangs.strung (hxs : Hangs l (.first h) (xs ++ ys))
    (hptr : ∀ q, q ≠ endOf (.first h) xs → (∀ m, q = .next m → m ∈ xs) → l'.ptr q = l.ptr q)
    (hpprev : ∀ m ∈ xs, l'.pprev m = l.pprev m) : Strung l' (.first h) xs := by
  have hnodup : (Place.first h :: xs.map .next).Nodup := by
    rw [List.nodup_cons]
    refine ⟨by simp, List.Nodup.map next_injective (List.nodup_append.mp hxs.nodup).1⟩
  refine (hangs_append.mp hxs).1.congr (fun q hq => ?_) hpprev
  apply hptr q
  · rw [places_eq, List.nodup_append] at hnodup
    exact hnodup.2.2 q hq _ (List.mem_singleton_self _)
  · rintro m rfl
    have hmem := (List.dropLast_sublist _).subset hq
    simpa using hmem

theorem eq_of_endOf {k : η} (hend : endOf (.first h) xs = .first k) : k = h := by
  obtain rfl | ⟨zs, z, rfl⟩ := List.eq_nil_or_concat' xs
  · exact (Place.first.inj hend).symm
  · rw [endOf_concat] at hend
    cases hend

theorem mem_of_endOf {m : ν} (hend : endOf (.first h) xs = .next m) : m ∈ xs := by
  obtain rfl | ⟨zs, z, rfl⟩ := List.eq_nil_or_concat' xs
  · cases hend
  · rw [endOf_concat] at hend
    obtain rfl : z = m := Place.next.inj hend
    simp

/-- **A node is put in between.** -/
theorem Hangs.insert (hns : Hangs l (.first h) (xs ++ ys)) (hn : n ∉ xs ++ ys)
    (hnew : l'.ptr (endOf (.first h) xs) = some n)
    (hback : l'.pprev n = some (endOf (.first h) xs)) (hnext : l'.ptr (.next n) = ys.head?)
    (hhead : ∀ m, ys.head? = some m → l'.pprev m = some (.next n))
    (hptr : ∀ q, q ≠ endOf (.first h) xs → q ≠ .next n → l'.ptr q = l.ptr q)
    (hpprev : ∀ m, m ≠ n → ys.head? ≠ some m → l'.pprev m = l.pprev m) :
    Hangs l' (.first h) (xs ++ n :: ys) := by
  obtain ⟨hnx, hny⟩ := not_or.mp (mt List.mem_append.mpr hn)
  have hdisjoint := (List.nodup_append.mp hns.nodup).2.2
  refine hangs_append.mpr ⟨hns.strung (fun q hq hmem => ?_) fun m hm => ?_, hnew, hback, ?_⟩
  · exact hptr q hq fun heq => hnx (hmem n heq)
  · apply hpprev m (fun heq => hnx (heq ▸ hm))
    exact fun heq => hdisjoint m hm m (List.mem_of_head? heq) rfl
  · apply (hangs_append.mp hns).2.rehang hnext hhead
    · intro m hm
      apply hptr
      · exact fun heq => hdisjoint m (mem_of_endOf heq.symm) m hm rfl
      · exact fun heq => hny (Place.next.inj heq ▸ hm)
    · exact fun m hhead hm => hpprev m (fun heq => hny (heq ▸ hm)) hhead

/-- **A node is taken out.** -/
theorem Hangs.remove (hns : Hangs l (.first h) (xs ++ n :: ys))
    (hend : l'.ptr (endOf (.first h) xs) = ys.head?)
    (hhead : ∀ m, ys.head? = some m → l'.pprev m = some (endOf (.first h) xs))
    (hptr : ∀ q, q ≠ endOf (.first h) xs → q ≠ .next n → l'.ptr q = l.ptr q)
    (hpprev : ∀ m, m ≠ n → ys.head? ≠ some m → l'.pprev m = l.pprev m) :
    Hangs l' (.first h) (xs ++ ys) := by
  obtain ⟨-, hnodup, hdisjoint⟩ := List.nodup_append.mp hns.nodup
  have hny := (List.nodup_cons.mp hnodup).1
  have hnx : n ∉ xs := fun hmem => hdisjoint n hmem n List.mem_cons_self rfl
  refine hangs_append.mpr ⟨hns.strung (fun q hq hmem => ?_) fun m hm => ?_, ?_⟩
  · exact hptr q hq fun heq => hnx (hmem n heq)
  · apply hpprev m (fun heq => hnx (heq ▸ hm))
    exact fun heq => hdisjoint m hm m (List.mem_cons_of_mem n (List.mem_of_head? heq)) rfl
  · apply (hangs_append.mp hns).2.2.2.rehang hend hhead
    · intro m hm
      apply hptr
      · exact fun heq => hdisjoint m (mem_of_endOf heq.symm) m (List.mem_cons_of_mem n hm) rfl
      · exact fun heq => hny (Place.next.inj heq ▸ hm)
    · exact fun m hhead hm => hpprev m (fun heq => hny (heq ▸ hm)) hhead

end Hangs

/-! ### Tables -/

/-- What is known of a node that is on no list: nothing, that it has no way back, or that its way
back leads to itself. -/
inductive Mark where
  | loose
  | idle
  | fake
deriving DecidableEq

structure Table (η ν : Type*) where
  lists : List (η × List ν)
  mark : ν → Mark

section Tables

variable {η ν : Type*}

/-- The node is on no list. -/
def Table.Free (t : Table η ν) (n : ν) : Prop := ∀ p ∈ t.lists, n ∉ p.2

instance [DecidableEq ν] (t : Table η ν) (n : ν) : Decidable (t.Free n) :=
  inferInstanceAs (Decidable (∀ p ∈ t.lists, n ∉ p.2))

def Table.forget [DecidableEq η] (t : Table η ν) (h : η) : Table η ν :=
  { t with lists := t.lists.filter fun p => p.1 ≠ h }

def Table.setMark [DecidableEq ν] (t : Table η ν) (n : ν) (mark : Mark) : Table η ν :=
  { t with mark := Function.update t.mark n mark }

structure Represents (l : Pointers η ν) (live : Set (Place η ν)) (t : Table η ν) : Prop where
  head_live : ∀ p ∈ t.lists, .first p.1 ∈ live
  node_live : ∀ p ∈ t.lists, ∀ n ∈ p.2, .next n ∈ live
  hangs : ∀ p ∈ t.lists, Hangs l (.first p.1) p.2
  idle : ∀ n, t.mark n = .idle → .next n ∈ live ∧ l.ptr (.next n) = none ∧ l.pprev n = none
  fake : ∀ n, t.mark n = .fake →
    .next n ∈ live ∧ l.ptr (.next n) = none ∧ l.pprev n = some (.next n)

variable {l l' : Pointers η ν} {live : Set (Place η ν)} {t : Table η ν} {n : ν}

theorem Represents.eq_of_head (h : Represents l live t) {p q : η × List ν} (hp : p ∈ t.lists)
    (hq : q ∈ t.lists) (heq : p.1 = q.1) : p = q := by
  have hpq := h.hangs q hq
  rw [← heq] at hpq
  exact Prod.ext heq ((h.hangs p hp).eq hpq)

theorem Represents.eq_of_mem (h : Represents l live t) {p q : η × List ν} (hp : p ∈ t.lists)
    (hq : q ∈ t.lists) (hn : n ∈ p.2) (hn' : n ∈ q.2) : p = q :=
  h.eq_of_head hp hq ((h.hangs p hp).head_eq (h.hangs q hq) hn hn')

theorem Represents.free_of_mark (h : Represents l live t) (hmark : t.mark n ≠ .loose) :
    t.Free n := by
  intro p hp hn
  obtain ⟨xs, ys, hsplit⟩ := List.append_of_mem hn
  have hhangs := h.hangs p hp
  rw [hsplit] at hhangs
  have hpprev := hhangs.pprev
  cases hcase : t.mark n with
  | loose => exact hmark hcase
  | idle =>
      rw [(h.idle n hcase).2.2] at hpprev
      cases hpprev
  | fake =>
      rw [(h.fake n hcase).2.2] at hpprev
      have hself := mem_of_endOf (Option.some.inj hpprev).symm
      exact (List.nodup_append.mp hhangs.nodup).2.2 n hself n List.mem_cons_self rfl

/-- What no list and no mark depends on can change. -/
theorem Represents.write (h : Represents l live t)
    (hfirst : ∀ p ∈ t.lists, l'.ptr (.first p.1) = l.ptr (.first p.1))
    (hsame : ∀ m, (¬ t.Free m ∨ t.mark m ≠ .loose) →
      l'.ptr (.next m) = l.ptr (.next m) ∧ l'.pprev m = l.pprev m) : Represents l' live t where
  head_live := h.head_live
  node_live := h.node_live
  hangs := fun p hp => (h.hangs p hp).congr (hfirst p hp) fun m hm =>
    hsame m (Or.inl fun hfree => hfree p hp hm)
  idle := by
    intro m hm
    obtain ⟨hnext, hpprev⟩ := hsame m (Or.inr (by simp [hm]))
    rw [hnext, hpprev]
    exact h.idle m hm
  fake := by
    intro m hm
    obtain ⟨hnext, hpprev⟩ := hsame m (Or.inr (by simp [hm]))
    rw [hnext, hpprev]
    exact h.fake m hm

theorem Represents.cons (h : Represents l live t) {head : η} {ns : List ν}
    (hhead : .first head ∈ live) (hns : ∀ n ∈ ns, .next n ∈ live)
    (hhangs : Hangs l (.first head) ns) :
    Represents l live { t with lists := (head, ns) :: t.lists } where
  head_live := List.forall_mem_cons.mpr ⟨hhead, h.head_live⟩
  node_live := List.forall_mem_cons.mpr ⟨hns, h.node_live⟩
  hangs := List.forall_mem_cons.mpr ⟨hhangs, h.hangs⟩
  idle := h.idle
  fake := h.fake

section Forget

variable [DecidableEq η]

theorem mem_forget {head : η} {p : η × List ν} :
    p ∈ (t.forget head).lists ↔ p ∈ t.lists ∧ p.1 ≠ head := by
  rw [Table.forget, List.mem_filter, decide_eq_true_iff]

theorem Represents.forget (h : Represents l live t) (head : η) :
    Represents l live (t.forget head) where
  head_live p hp := h.head_live p (mem_forget.mp hp).1
  node_live p hp := h.node_live p (mem_forget.mp hp).1
  hangs p hp := h.hangs p (mem_forget.mp hp).1
  idle := h.idle
  fake := h.fake

theorem Represents.free_forget (h : Represents l live t) {p : η × List ν} (hp : p ∈ t.lists)
    (hn : n ∈ p.2) : (t.forget p.1).Free n := by
  intro q hq hmem
  obtain ⟨hq, hne⟩ := mem_forget.mp hq
  exact hne (congrArg Prod.fst (h.eq_of_mem hq hp hmem hn))

end Forget

variable [DecidableEq ν]

theorem Represents.setMark (h : Represents l live t) {mark : Mark}
    (hidle : mark = .idle → .next n ∈ live ∧ l.ptr (.next n) = none ∧ l.pprev n = none)
    (hfake : mark = .fake →
      .next n ∈ live ∧ l.ptr (.next n) = none ∧ l.pprev n = some (.next n)) :
    Represents l live (t.setMark n mark) where
  head_live := h.head_live
  node_live := h.node_live
  hangs := h.hangs
  idle := by
    intro m hm
    rw [Table.setMark] at hm
    by_cases hmn : m = n
    · rw [hmn] at hm ⊢
      exact hidle ((Function.update_self n mark t.mark).symm.trans hm)
    · exact h.idle m ((Function.update_of_ne hmn mark t.mark).symm.trans hm)
  fake := by
    intro m hm
    rw [Table.setMark] at hm
    by_cases hmn : m = n
    · rw [hmn] at hm ⊢
      exact hfake ((Function.update_self n mark t.mark).symm.trans hm)
    · exact h.fake m ((Function.update_of_ne hmn mark t.mark).symm.trans hm)

theorem Represents.loosen (h : Represents l live t) (n : ν) :
    Represents l live (t.setMark n .loose) :=
  h.setMark (fun heq => by cases heq) fun heq => by cases heq

/-- The pointers of one node may differ. -/
structure SameBut (n : ν) (l l' : Pointers η ν) : Prop where
  ptr : ∀ p, p ≠ .next n → l'.ptr p = l.ptr p
  pprev : ∀ m, m ≠ n → l'.pprev m = l.pprev m

/-- A free node can be written to. -/
theorem Represents.loose_write (h : Represents l live t) (hfree : t.Free n)
    (hsame : SameBut n l l') : Represents l' live (t.setMark n .loose) := by
  apply (h.loosen n).write
  · exact fun p _ => hsame.ptr _ (by simp)
  · intro m hm
    have hmn : m ≠ n := by
      rintro rfl
      obtain hm | hm := hm
      · exact hm hfree
      · exact hm (if_pos rfl)
    exact ⟨hsame.ptr _ fun heq => hmn (Place.next.inj heq), hsame.pprev m hmn⟩

/-- **One list changes**, with the pointers of its nodes and of one more. -/
theorem Represents.relink (h : Represents l live t) {p₀ : η × List ν} (hp₀ : p₀ ∈ t.lists)
    (hn : t.Free n ∨ n ∈ p₀.2) {f : η × List ν → List ν}
    (hother : ∀ p ∈ t.lists, p ≠ p₀ → f p = p.2) (hnew : Hangs l' (.first p₀.1) (f p₀))
    (hlive : ∀ m ∈ f p₀, .next m ∈ live)
    (hfirst : ∀ k, k ≠ p₀.1 → l'.ptr (.first k) = l.ptr (.first k))
    (hsame : ∀ m, m ∉ p₀.2 → m ≠ n →
      l'.ptr (.next m) = l.ptr (.next m) ∧ l'.pprev m = l.pprev m) :
    Represents l' live
      (Table.setMark { t with lists := t.lists.map fun p => (p.1, f p) } n .loose) := by
  have hkept : ∀ p ∈ t.lists, p ≠ p₀ → ∀ m ∈ p.2,
      l'.ptr (.next m) = l.ptr (.next m) ∧ l'.pprev m = l.pprev m := by
    intro p hp hne m hm
    apply hsame m (fun hm' => hne (h.eq_of_mem hp hp₀ hm hm'))
    rintro rfl
    obtain hfree | hmem := hn
    · exact hfree p hp hm
    · exact hne (h.eq_of_mem hp hp₀ hm hmem)
  have hloose := h.loosen n
  have hmarked : ∀ m, (t.setMark n .loose).mark m ≠ .loose →
      l'.ptr (.next m) = l.ptr (.next m) ∧ l'.pprev m = l.pprev m := by
    intro m hm
    apply hsame m (hloose.free_of_mark hm p₀ hp₀)
    rintro rfl
    exact hm (if_pos rfl)
  constructor
  · intro p' hp'
    obtain ⟨p, hp, rfl⟩ := List.mem_map.mp hp'
    exact h.head_live p hp
  · intro p' hp'
    obtain ⟨p, hp, rfl⟩ := List.mem_map.mp hp'
    by_cases heq : p = p₀
    · exact heq ▸ hlive
    · dsimp only
      rw [hother p hp heq]
      exact h.node_live p hp
  · intro p' hp'
    obtain ⟨p, hp, rfl⟩ := List.mem_map.mp hp'
    by_cases heq : p = p₀
    · exact heq ▸ hnew
    · dsimp only
      rw [hother p hp heq]
      apply (h.hangs p hp).congr (hfirst p.1 fun hhead => heq (h.eq_of_head hp hp₀ hhead))
      exact hkept p hp heq
  · intro m hm
    have hidle : (t.setMark n .loose).mark m = .idle := hm
    obtain ⟨hnext, hpprev⟩ := hmarked m (by simp [hidle])
    rw [hnext, hpprev]
    exact hloose.idle m hidle
  · intro m hm
    have hfake : (t.setMark n .loose).mark m = .fake := hm
    obtain ⟨hnext, hpprev⟩ := hmarked m (by simp [hfake])
    rw [hnext, hpprev]
    exact hloose.fake m hfake

section Places

variable {p₀ : η × List ν} {xs ys : List ν}

omit [DecidableEq ν] in
theorem Represents.endOf_live (h : Represents l live t) (hp₀ : p₀ ∈ t.lists)
    (hsplit : p₀.2 = xs ++ ys) : endOf (.first p₀.1) xs ∈ live := by
  obtain rfl | ⟨zs, z, rfl⟩ := List.eq_nil_or_concat' xs
  · exact h.head_live p₀ hp₀
  · rw [endOf_concat]
    exact h.node_live p₀ hp₀ z (by simp [hsplit])

omit [DecidableEq ν] in
theorem Represents.head?_live (h : Represents l live t) (hp₀ : p₀ ∈ t.lists)
    (hsplit : p₀.2 = xs ++ ys) : ∀ m ∈ ys.head?, .next m ∈ live := by
  intro m hm
  apply h.node_live p₀ hp₀
  rw [hsplit]
  exact List.mem_append_right xs (List.mem_of_mem_head? hm)

/-- **A free node is put on a list**, between `xs` and `ys`. -/
theorem Represents.insert (h : Represents l live t) (hp₀ : p₀ ∈ t.lists) (hsplit : p₀.2 = xs ++ ys)
    (hlive : .next n ∈ live) (hfree : t.Free n) {f : η × List ν → List ν}
    (hother : ∀ p ∈ t.lists, p ≠ p₀ → f p = p.2) (hf : f p₀ = xs ++ n :: ys)
    (hnew : l'.ptr (endOf (.first p₀.1) xs) = some n)
    (hback : l'.pprev n = some (endOf (.first p₀.1) xs)) (hnext : l'.ptr (.next n) = ys.head?)
    (hhead : ∀ m, ys.head? = some m → l'.pprev m = some (.next n))
    (hptr : ∀ q, q ≠ endOf (.first p₀.1) xs → q ≠ .next n → l'.ptr q = l.ptr q)
    (hpprev : ∀ m, m ≠ n → ys.head? ≠ some m → l'.pprev m = l.pprev m) :
    Represents l' live
      (Table.setMark { t with lists := t.lists.map fun p => (p.1, f p) } n .loose) := by
  have hhangs := h.hangs p₀ hp₀
  rw [hsplit] at hhangs
  apply h.relink hp₀ (Or.inl hfree) hother
  · rw [hf]
    exact hhangs.insert (hsplit ▸ hfree p₀ hp₀) hnew hback hnext hhead hptr hpprev
  · intro m hm
    rw [hf, List.mem_append, List.mem_cons] at hm
    obtain hm | rfl | hm := hm
    · exact h.node_live p₀ hp₀ m (by simp [hsplit, hm])
    · exact hlive
    · exact h.node_live p₀ hp₀ m (by simp [hsplit, hm])
  · exact fun k hk => hptr _ (fun heq => hk (eq_of_endOf heq.symm)) (by simp)
  · intro m hm hmn
    rw [hsplit, List.mem_append, not_or] at hm
    refine ⟨hptr _ (fun heq => hm.1 (mem_of_endOf heq.symm)) fun heq => hmn (Place.next.inj heq), ?_⟩
    exact hpprev m hmn fun heq => hm.2 (List.mem_of_head? heq)

theorem Represents.remove (h : Represents l live t) (hp₀ : p₀ ∈ t.lists)
    (hsplit : p₀.2 = xs ++ n :: ys) {f : η × List ν → List ν}
    (hother : ∀ p ∈ t.lists, p ≠ p₀ → f p = p.2) (hf : f p₀ = xs ++ ys)
    (hend : l'.ptr (endOf (.first p₀.1) xs) = ys.head?)
    (hhead : ∀ m, ys.head? = some m → l'.pprev m = some (endOf (.first p₀.1) xs))
    (hptr : ∀ q, q ≠ endOf (.first p₀.1) xs → q ≠ .next n → l'.ptr q = l.ptr q)
    (hpprev : ∀ m, m ≠ n → ys.head? ≠ some m → l'.pprev m = l.pprev m) :
    Represents l' live
      (Table.setMark { t with lists := t.lists.map fun p => (p.1, f p) } n .loose) := by
  have hhangs := h.hangs p₀ hp₀
  rw [hsplit] at hhangs
  apply h.relink hp₀ (Or.inr (by simp [hsplit])) hother
  · rw [hf]
    exact hhangs.remove hend hhead hptr hpprev
  · intro m hm
    rw [hf, List.mem_append] at hm
    apply h.node_live p₀ hp₀
    obtain hm | hm := hm
    · simp [hsplit, hm]
    · simp [hsplit, hm]
  · exact fun k hk => hptr _ (fun heq => hk (eq_of_endOf heq.symm)) (by simp)
  · intro m hm hmn
    rw [hsplit, List.mem_append, List.mem_cons, not_or, not_or] at hm
    refine ⟨hptr _ (fun heq => hm.1 (mem_of_endOf heq.symm)) fun heq => hmn (Place.next.inj heq), ?_⟩
    exact hpprev m hmn fun heq => hm.2.2 (List.mem_of_head? heq)

end Places

end Tables

end Pnl.HashLists
