import Pnl.Hlist
import Pnl.Lib.ListFamilies

/-!
# Runs of the hash lists

Whatever sequence of calls the hash lists of `list.h` allow, each head in memory has the nodes that
the operations are named after. A node is deleted without its head, and one that only pretends to be
on a list can be deleted too.
-/

namespace Pnl.Hlist

open HashLists Loops Runs

variable {l : Pointers} {live : Set Place} [DecidablePred (· ∈ live)] {t : Table}

/-! ### One call -/

theorem exists_list_of_not_free {n : Addr} (h : ¬ t.Free n) :
    ∃ p ∈ t.lists, ∃ xs ys, p.2 = xs ++ n :: ys := by
  simp only [Table.Free, not_forall, not_not] at h
  obtain ⟨p, hp, hn⟩ := h
  exact ⟨p, hp, List.append_of_mem hn⟩

theorem erase_of_split {n : Addr} {xs ys : List Addr} (h : (xs ++ n :: ys).Nodup) :
    (xs ++ n :: ys).erase n = xs ++ ys := by
  have hnx : n ∉ xs := fun hmem =>
    (List.nodup_append.mp h).2.2 n hmem n List.mem_cons_self rfl
  rw [List.erase_append_right _ hnx, List.erase_cons_head]

theorem flatMap_of_split {a : Addr} {f : Addr → List Addr} {xs ys : List Addr}
    (h : (xs ++ a :: ys).Nodup) :
    ((xs ++ a :: ys).flatMap fun b => if b = a then f b else [b]) = xs ++ f a ++ ys := by
  have hnx : a ∉ xs := fun hmem =>
    (List.nodup_append.mp h).2.2 a hmem a List.mem_cons_self rfl
  have hny : a ∉ ys := (List.nodup_cons.mp (List.nodup_append.mp h).2.1).1
  rw [List.flatMap_append, List.flatMap_cons, if_pos rfl, ListHeads.flatMap_of_notMem hnx,
    ListHeads.flatMap_of_notMem hny, List.append_assoc]

theorem delete_eq {n : Addr} {place : Place} (hn : .next n ∈ live) (hplace : place ∈ live)
    (hpprev : l.pprev n = some place) (hnext : ∀ m ∈ l.ptr (.next n), .next m ∈ live) :
    delete l live n = some (Pointers.hung { l with ptr := Function.update l.ptr place (l.ptr (.next n)) }
      (l.ptr (.next n)) (some place)) := by
  simp only [delete, load_of_live hn, loadPprev_of_live hn, hpprev, store_of_live hplace,
    hang_of_live hnext, Option.bind_eq_bind, Option.bind_some]

theorem mapLists_eq_self {f : Addr × List Addr → List Addr} (h : ∀ p ∈ t.lists, f p = p.2) :
    mapLists t f = t := by
  have hlists : (t.lists.map fun p => (p.1, f p)) = t.lists := by
    rw [List.map_congr_left (g := id) fun p hp => by rw [h p hp]; rfl, List.map_id]
  rw [mapLists, hlists]

theorem erase_of_free {n : Addr} (hfree : t.Free n) : (mapLists t fun p => p.2.erase n) = t :=
  mapLists_eq_self fun p hp => List.erase_of_not_mem (hfree p hp)

theorem setMark_setMark (t : Table) (n : Addr) (mark mark' : Mark) :
    (t.setMark n mark).setMark n mark' = t.setMark n mark' := by
  rw [Table.setMark, Table.setMark, Function.update_idem]
  rfl

/-- **`__hlist_del` takes a node off its list**, and its own pointers may become anything. -/
theorem delete_represents (h : Represents l live t) {n : Addr} (hn : ¬ t.Free n) :
    ∃ l₁, delete l live n = some l₁ ∧ .next n ∈ live ∧ ∀ l', SameBut n l₁ l' →
      Represents l' live ((mapLists t fun p => p.2.erase n).setMark n .loose) := by
  obtain ⟨p, hp, xs, ys, hsplit⟩ := exists_list_of_not_free hn
  have hhangs := h.hangs p hp
  have hmem : n ∈ p.2 := by simp [hsplit]
  have hlive := h.node_live p hp n hmem
  have hnodup := hhangs.nodup
  rw [hsplit] at hhangs hnodup
  have hnext : l.ptr (.next n) = ys.head? := (hangs_append.mp hhangs).2.2.2.ptr
  have hsplit' : p.2 = (xs ++ [n]) ++ ys := by rw [hsplit, List.append_cons]
  have hdelete := delete_eq hlive (h.endOf_live hp hsplit) hhangs.pprev
    (hnext ▸ h.head?_live hp hsplit')
  rw [hnext] at hdelete
  have hend : endOf (.first p.1) xs ≠ .next n := fun heq =>
    (List.nodup_append.mp hnodup).2.2 n (mem_of_endOf heq) n List.mem_cons_self rfl
  have hhead : ∀ m, ys.head? = some m → m ≠ n := by
    rintro m hm rfl
    exact (List.nodup_cons.mp (List.nodup_append.mp hnodup).2.1).1 (List.mem_of_head? hm)
  refine ⟨_, hdelete, hlive, fun l' hsame => ?_⟩
  apply h.remove hp hsplit
  · intro q hq hne
    exact List.erase_of_not_mem fun hmem' => hne (h.eq_of_mem hq hp hmem' hmem)
  · rw [hsplit, erase_of_split hnodup]
  · rw [hsame.ptr _ hend]
    exact Function.update_self _ _ _
  · intro m hm
    rw [hsame.pprev m (hhead m hm), pprev_hung hm]
  · intro q hq hqn
    rw [hsame.ptr q hqn]
    exact Function.update_of_ne hq _ _
  · intro m hmn hm
    rw [hsame.pprev m hmn, pprev_hung_of_ne hm]

theorem sameBut_write (l : Pointers) (n : Addr) (v : Option Addr) (q : Option Place) :
    SameBut n l ⟨Function.update l.ptr (.next n) v, Function.update l.pprev n q⟩ :=
  ⟨fun _ hp => Function.update_of_ne hp _ _, fun _ hm => Function.update_of_ne hm _ _⟩

/-- What `__hlist_del` does to a node that pretends to be on a list. -/
theorem delete_of_fake (h : Represents l live t) {n : Addr} (hn : t.mark n = .fake) :
    ∃ l₁, delete l live n = some l₁ ∧ .next n ∈ live ∧ ∀ l', SameBut n l₁ l' →
      Represents l' live ((mapLists t fun p => p.2.erase n).setMark n .loose) := by
  obtain ⟨hlive, hnext, hpprev⟩ := h.fake n hn
  have hfree : t.Free n := h.free_of_mark (by simp [hn])
  have hdelete := delete_eq hlive hlive hpprev (by simp [hnext])
  rw [hnext] at hdelete
  refine ⟨_, hdelete, hlive, fun l' hsame => ?_⟩
  rw [erase_of_free hfree]
  apply h.loose_write hfree
  rw [hung_none] at hsame
  exact ⟨fun p hp => (hsame.ptr p hp).trans (Function.update_of_ne hp _ _), hsame.pprev⟩

theorem delete_spec (h : Represents l live t) {n : Addr} (hn : ¬ t.Free n ∨ t.mark n = .fake) :
    ∃ l₁, delete l live n = some l₁ ∧ .next n ∈ live ∧ ∀ l', SameBut n l₁ l' →
      Represents l' live ((mapLists t fun p => p.2.erase n).setMark n .loose) :=
  hn.elim (delete_represents h) (delete_of_fake h)

theorem initHlistNode_eq (l : Pointers) {n : Addr} (hn : .next n ∈ live) :
    initHlistNode l live n
      = some ⟨Function.update l.ptr (.next n) none, Function.update l.pprev n none⟩ := by
  rw [initHlistNode, store_of_live hn, Option.bind_eq_bind, Option.bind_some, storePprev_of_live hn]

omit [DecidablePred (· ∈ live)] in
/-- A node that is not on a list is as `INIT_HLIST_NODE` leaves it. -/
theorem idle_represents {n : Addr} (hlive : .next n ∈ live)
    (h : Represents ⟨Function.update l.ptr (.next n) none, Function.update l.pprev n none⟩ live
      (t.setMark n .loose)) :
    Represents ⟨Function.update l.ptr (.next n) none, Function.update l.pprev n none⟩ live
      (t.setMark n .idle) := by
  rw [← setMark_setMark t n .loose .idle]
  apply h.setMark
  · exact fun _ => ⟨hlive, Function.update_self _ _ _, Function.update_self _ _ _⟩
  · exact fun heq => by cases heq

theorem hlistDel_represents (h : Represents l live t) {n : Addr}
    (hn : ¬ t.Free n ∨ t.mark n = .fake) :
    ∃ l', hlistDel l live n = some l' ∧ Represents l' live (Call.after t (.hlistDel n)) := by
  obtain ⟨l₁, hdelete, hlive, hrepresents⟩ := delete_spec h hn
  refine ⟨_, ?_, hrepresents _ (sameBut_write l₁ n (some listPoison1) (some listPoison2))⟩
  simp only [hlistDel, hdelete, store_of_live hlive, storePprev_of_live hlive, Option.bind_eq_bind,
    Option.bind_some]

theorem hlistDelInit_represents (h : Represents l live t) {n : Addr}
    (hn : ¬ t.Free n ∨ t.mark n ≠ .loose) :
    ∃ l', hlistDelInit l live n = some l' ∧ Represents l' live (Call.after t (.hlistDelInit n)) := by
  by_cases hidle : t.mark n = .idle
  · obtain ⟨hlive, hnext, hpprev⟩ := h.idle n hidle
    have hfree : t.Free n := h.free_of_mark (by simp [hidle])
    refine ⟨l, ?_, ?_⟩
    · simp only [hlistDelInit, hlistUnhashed, loadPprev_of_live hlive, hpprev, Option.bind_eq_bind,
        Option.bind_some, Option.pure_def, Option.isNone_none, if_true]
    · rw [Call.after, erase_of_free hfree]
      exact h.setMark (fun _ => ⟨hlive, hnext, hpprev⟩) fun heq => by cases heq
  · have hback : ¬ t.Free n ∨ t.mark n = .fake := by
      refine hn.imp_right fun hloose => ?_
      cases hcase : t.mark n with
      | loose => exact absurd hcase hloose
      | idle => exact absurd hcase hidle
      | fake => rfl
    obtain ⟨l₁, hdelete, hlive, hrepresents⟩ := delete_spec h hback
    have hhashed : hlistUnhashed l live n = some false := by
      obtain hon | hfake := hback
      · obtain ⟨p, hp, xs, ys, hsplit⟩ := exists_list_of_not_free hon
        have hhangs := h.hangs p hp
        rw [hsplit] at hhangs
        simp [hlistUnhashed, loadPprev_of_live hlive, hhangs.pprev]
      · simp [hlistUnhashed, loadPprev_of_live hlive, (h.fake n hfake).2.2]
    refine ⟨_, ?_, idle_represents hlive (hrepresents _ (sameBut_write l₁ n none none))⟩
    rw [hlistDelInit, hhashed, Option.bind_eq_bind, Option.bind_some, if_neg Bool.false_ne_true,
      hdelete, Option.bind_eq_bind, Option.bind_some, initHlistNode_eq l₁ hlive]

theorem initHlistNode_represents (h : Represents l live t) {n : Addr} (hlive : .next n ∈ live)
    (hfree : t.Free n) :
    ∃ l', initHlistNode l live n = some l' ∧ Represents l' live (Call.after t (.initHlistNode n)) :=
  ⟨_, initHlistNode_eq l hlive,
    idle_represents hlive (h.loose_write hfree (sameBut_write l n none none))⟩

theorem hlistAddFake_represents (h : Represents l live t) {n : Addr} (hn : t.mark n = .idle) :
    ∃ l', hlistAddFake l live n = some l' ∧ Represents l' live (Call.after t (.hlistAddFake n)) := by
  obtain ⟨hlive, hnext, -⟩ := h.idle n hn
  have hfree : t.Free n := h.free_of_mark (by simp [hn])
  refine ⟨_, storePprev_of_live hlive _, ?_⟩
  have hloose : Represents { l with pprev := Function.update l.pprev n (some (.next n)) } live
      (t.setMark n .loose) :=
    h.loose_write hfree ⟨fun _ _ => rfl, fun _ hm => Function.update_of_ne hm _ _⟩
  rw [Call.after, ← setMark_setMark t n .loose .fake]
  apply hloose.setMark
  · exact fun heq => by cases heq
  · exact fun _ => ⟨hlive, hnext, Function.update_self _ _ _⟩

/-! ### Adding -/

theorem hlistAddHead_represents (h : Represents l live t) {n head : Addr} (hlive : .next n ∈ live)
    (hfree : t.Free n) (hhead : ∃ p ∈ t.lists, p.1 = head) :
    ∃ l', hlistAddHead l live n head = some l'
      ∧ Represents l' live (Call.after t (.hlistAddHead n head)) := by
  obtain ⟨p, hp, rfl⟩ := hhead
  have hfirst := (h.hangs p hp).ptr
  have hplace := h.head_live p hp
  have hhang : ∀ m ∈ p.2.head?, .next m ∈ live := h.head?_live hp (List.nil_append p.2).symm
  have hne : ∀ m, p.2.head? = some m → m ≠ n := by
    rintro m hm rfl
    exact hfree p hp (List.mem_of_head? hm)
  refine ⟨⟨Function.update (Function.update l.ptr (.next n) p.2.head?) (.first p.1) (some n),
    Function.update (l.hung p.2.head? (some (.next n))).pprev n (some (.first p.1))⟩, ?_, ?_⟩
  · simp only [hlistAddHead, load_of_live hplace, hfirst, store_of_live hlive, hang_of_live hhang,
      store_of_live hplace, storePprev_of_live hlive, Option.bind_eq_bind, Option.bind_some]
    rfl
  · have hsplit : p.2 = [] ++ p.2 := rfl
    apply h.insert hp hsplit hlive hfree
    · exact fun q hq hne' => if_neg fun heq => hne' (h.eq_of_head hq hp heq)
    · exact if_pos rfl
    · exact Function.update_self _ _ _
    · exact Function.update_self _ _ _
    · dsimp only
      rw [Function.update_of_ne (by simp), Function.update_self]
    · intro m hm
      dsimp only
      rw [Function.update_of_ne (hne m hm), pprev_hung hm]
    · intro q hq hqn
      have hqfirst : q ≠ .first p.1 := hq
      dsimp only
      rw [Function.update_of_ne hqfirst, Function.update_of_ne hqn]
    · intro m hmn hm
      dsimp only
      rw [Function.update_of_ne hmn, pprev_hung_of_ne hm]

theorem hlistAddBefore_represents (h : Represents l live t) {n next : Addr}
    (hlive : .next n ∈ live) (hfree : t.Free n) (hnext : ¬ t.Free next) :
    ∃ l', hlistAddBefore l live n next = some l'
      ∧ Represents l' live (Call.after t (.hlistAddBefore n next)) := by
  obtain ⟨p, hp, xs, ys, hsplit⟩ := exists_list_of_not_free hnext
  have hmem : next ∈ p.2 := by simp [hsplit]
  have hhangs := h.hangs p hp
  have hnodup := hhangs.nodup
  rw [hsplit] at hhangs hnodup
  set place := endOf (.first p.1) xs with hplace
  have hpprev : l.pprev next = some place := hhangs.pprev
  have hplacelive : place ∈ live := h.endOf_live hp hsplit
  have hnextlive := h.node_live p hp next hmem
  have hne : next ≠ n := fun heq => hfree p hp (heq ▸ hmem)
  have hplacen : place ≠ .next n := fun heq =>
    hfree p hp (hsplit ▸ List.mem_append_left _ (mem_of_endOf heq))
  refine ⟨⟨Function.update (Function.update l.ptr (.next n) (some next)) place (some n),
    Function.update (Function.update l.pprev n (some place)) next (some (.next n))⟩, ?_, ?_⟩
  · simp only [hlistAddBefore, loadPprev_of_live hnextlive, hpprev, storePprev_of_live hlive,
      store_of_live hlive, storePprev_of_live hnextlive, loadPprev_of_live hlive,
      Function.update_of_ne hne.symm, Function.update_self, store_of_live hplacelive,
      Option.bind_eq_bind, Option.bind_some]
  · apply h.insert hp hsplit hlive hfree
    · intro q hq hne'
      have hnotin : next ∉ q.2 := fun hmem' => hne' (h.eq_of_mem hq hp hmem' hmem)
      exact ListHeads.flatMap_of_notMem (f := fun a => [n, a]) hnotin
    · rw [hsplit, flatMap_of_split (f := fun a => [n, a]) hnodup]
      simp
    · exact Function.update_self _ _ _
    · dsimp only
      rw [Function.update_of_ne hne.symm, Function.update_self]
    · dsimp only
      rw [Function.update_of_ne hplacen.symm, Function.update_self]
      rfl
    · intro m hm
      obtain rfl : next = m := Option.some.inj hm
      exact Function.update_self _ _ _
    · intro q hq hqn
      dsimp only
      rw [Function.update_of_ne hq, Function.update_of_ne hqn]
    · intro m hmn hm
      have hmnext : m ≠ next := fun heq => hm (heq ▸ rfl)
      dsimp only
      rw [Function.update_of_ne hmnext, Function.update_of_ne hmn]

theorem hlistAddBehind_represents (h : Represents l live t) {n prev : Addr}
    (hlive : .next n ∈ live) (hfree : t.Free n) (hprev : ¬ t.Free prev) :
    ∃ l', hlistAddBehind l live n prev = some l'
      ∧ Represents l' live (Call.after t (.hlistAddBehind n prev)) := by
  obtain ⟨p, hp, xs, ys, hsplit⟩ := exists_list_of_not_free hprev
  have hmem : prev ∈ p.2 := by simp [hsplit]
  have hhangs := h.hangs p hp
  have hnodup := hhangs.nodup
  rw [hsplit] at hhangs hnodup
  have hptr : l.ptr (.next prev) = ys.head? := (hangs_append.mp hhangs).2.2.2.ptr
  have hsplit' : p.2 = (xs ++ [prev]) ++ ys := by rw [hsplit, List.append_cons]
  have hend : endOf (.first p.1) (xs ++ [prev]) = .next prev := endOf_concat _ xs prev
  have hhang := h.head?_live hp hsplit'
  have hprevlive := h.node_live p hp prev hmem
  have hne : prev ≠ n := fun heq => hfree p hp (heq ▸ hmem)
  have hplace : (.next n : Place) ≠ .next prev := fun heq => hne (Place.next.inj heq).symm
  have hhead : ∀ m, ys.head? = some m → m ≠ n := by
    rintro m hm rfl
    exact hfree p hp (hsplit' ▸ List.mem_append_right _ (List.mem_of_head? hm))
  refine ⟨⟨Function.update (Function.update l.ptr (.next n) ys.head?) (.next prev) (some n),
    (Pointers.hung { l with pprev := Function.update l.pprev n (some (.next prev)) } ys.head?
      (some (.next n))).pprev⟩, ?_, ?_⟩
  · simp only [hlistAddBehind, load_of_live hprevlive, hptr, store_of_live hlive,
      store_of_live hprevlive, storePprev_of_live hlive, load_of_live hlive,
      Function.update_of_ne hplace, Function.update_self, hang_of_live hhang, Option.bind_eq_bind,
      Option.bind_some]
    rfl
  · apply h.insert hp hsplit' hlive hfree
    · intro q hq hne'
      have hnotin : prev ∉ q.2 := fun hmem' => hne' (h.eq_of_mem hq hp hmem' hmem)
      exact ListHeads.flatMap_of_notMem (f := fun a => [a, n]) hnotin
    · rw [hsplit, flatMap_of_split (f := fun a => [a, n]) hnodup]
      simp
    · rw [hend]
      exact Function.update_self _ _ _
    · rw [hend]
      dsimp only
      rw [pprev_hung_of_ne fun heq => hhead n heq rfl]
      exact Function.update_self _ _ _
    · dsimp only
      rw [Function.update_of_ne hplace, Function.update_self]
    · exact fun m hm => pprev_hung hm _
    · intro q hq hqn
      rw [hend] at hq
      dsimp only
      rw [Function.update_of_ne hq, Function.update_of_ne hqn]
    · intro m hmn hm
      dsimp only
      rw [pprev_hung_of_ne hm]
      exact Function.update_of_ne hmn _ _

/-! ### Heads -/

omit [DecidablePred (· ∈ live)] in
theorem lookup_of_mem (h : Represents l live t) {p : Addr × List Addr} (hp : p ∈ t.lists) :
    t.lists.lookup p.1 = some p.2 := by
  obtain ⟨before, after, hsplit⟩ := List.append_of_mem hp
  by_cases hsome : (before.lookup p.1).isSome
  · obtain ⟨ns, hns⟩ := Option.isSome_iff_exists.mp hsome
    obtain ⟨xs, ys, hbefore, -⟩ := List.lookup_eq_some_iff.mp hns
    have hq : (p.1, ns) ∈ t.lists := by simp [hsplit, hbefore]
    rw [hsplit, List.lookup_append, hns, Option.some_or, ← h.eq_of_head hq hp rfl]
  · rw [Bool.not_eq_true, Option.isSome_eq_false_iff, Option.isNone_iff_eq_none] at hsome
    rw [hsplit, List.lookup_append, hsome, Option.none_or]
    exact List.lookup_cons_self

theorem initHlistHead_represents (h : Represents l live t) {head : Addr}
    (hlive : .first head ∈ live) :
    ∃ l', initHlistHead l live head = some l'
      ∧ Represents l' live (Call.after t (.initHlistHead head)) := by
  refine ⟨_, store_of_live hlive none, ?_⟩
  have hwritten : Represents { l with ptr := Function.update l.ptr (.first head) none } live
      (t.forget head) := by
    apply (h.forget head).write
    · intro p hp
      exact Function.update_of_ne (fun heq => (mem_forget.mp hp).2 (Place.first.inj heq)) _ _
    · intro m _
      have hplace : (.next m : Place) ≠ .first head := by simp
      exact ⟨Function.update_of_ne hplace none l.ptr, rfl⟩
  apply hwritten.cons hlive (by simp)
  exact Function.update_self _ _ _

theorem hlistMoveList_represents (h : Represents l live t) {old new : Addr}
    (hold : ∃ p ∈ t.lists, p.1 = old) (hlive : .first new ∈ live) (hne : new ≠ old) :
    ∃ l', hlistMoveList l live old new = some l'
      ∧ Represents l' live (Call.after t (.hlistMoveList old new)) := by
  obtain ⟨p, hp, rfl⟩ := hold
  have hfirst := (h.hangs p hp).ptr
  have hplace := h.head_live p hp
  have hhang := h.head?_live hp (List.nil_append p.2).symm
  have hplaces : (.first new : Place) ≠ .first p.1 := fun heq => hne (Place.first.inj heq)
  refine ⟨⟨Function.update (Function.update l.ptr (.first new) p.2.head?) (.first p.1) none,
    (l.hung p.2.head? (some (.first new))).pprev⟩, ?_, ?_⟩
  · simp only [hlistMoveList, load_of_live hplace, hfirst, store_of_live hlive, load_of_live hlive,
      Function.update_self, hang_of_live hhang, store_of_live hplace, Option.bind_eq_bind,
      Option.bind_some]
    rfl
  · have hlookup := lookup_of_mem h hp
    rw [Call.after, hlookup]
    have hfree : ∀ m ∈ p.2, ((t.forget p.1).forget new).Free m := by
      intro m hm q hq
      exact h.free_forget hp hm q (mem_forget.mp hq).1
    have hloose : ∀ m ∈ p.2, t.mark m = .loose := by
      intro m hm
      by_contra hmark
      exact h.free_of_mark hmark p hp hm
    set l' : Pointers := ⟨Function.update (Function.update l.ptr (.first new) p.2.head?)
      (.first p.1) none, (l.hung p.2.head? (some (.first new))).pprev⟩ with hl'
    have hnext : ∀ m, l'.ptr (.next m) = l.ptr (.next m) := by
      intro m
      rw [hl']
      dsimp only
      rw [Function.update_of_ne (by simp), Function.update_of_ne (by simp)]
    have hwritten : Represents l' live ((t.forget p.1).forget new) := by
      apply ((h.forget p.1).forget new).write
      · intro q hq
        obtain ⟨hq, hqnew⟩ := mem_forget.mp hq
        have hqold := (mem_forget.mp hq).2
        rw [hl']
        dsimp only
        rw [Function.update_of_ne fun heq => hqold (Place.first.inj heq),
          Function.update_of_ne fun heq => hqnew (Place.first.inj heq)]
      · intro m hm
        refine ⟨hnext m, pprev_hung_of_ne (fun heq => ?_) _⟩
        have hmem := List.mem_of_head? heq
        obtain hm | hm := hm
        · exact hm (hfree m hmem)
        · exact hm (hloose m hmem)
    refine (hwritten.cons hlive (h.node_live p hp) ?_).cons hplace (by simp) ?_
    · apply (h.hangs p hp).rehang
      · rw [hl']
        dsimp only
        rw [Function.update_of_ne hplaces, Function.update_self]
      · exact fun m hm => pprev_hung hm _
      · exact fun m _ => hnext m
      · exact fun m hm _ => pprev_hung_of_ne hm _
    · exact Function.update_self _ _ _

/-- **One call.** -/
theorem Call.run_represents (h : Represents l live t) {call : Call} (hpre : call.Pre live t) :
    ∃ l', call.run live l = some l' ∧ Represents l' live (call.after t) := by
  cases call with
  | initHlistHead head => exact initHlistHead_represents h hpre
  | initHlistNode n => exact initHlistNode_represents h hpre.1 hpre.2
  | hlistDel n => exact hlistDel_represents h hpre
  | hlistDelInit n => exact hlistDelInit_represents h hpre
  | hlistAddHead n head => exact hlistAddHead_represents h hpre.1 hpre.2.1 hpre.2.2
  | hlistAddBefore n next => exact hlistAddBefore_represents h hpre.1 hpre.2.1 hpre.2.2
  | hlistAddBehind n prev => exact hlistAddBehind_represents h hpre.1 hpre.2.1 hpre.2.2
  | hlistAddFake n => exact hlistAddFake_represents h hpre
  | hlistMoveList old new => exact hlistMoveList_represents h hpre.1 hpre.2.1 hpre.2.2

/-! ### Runs -/

theorem runCalls_represents (h : Represents l live t) {calls : List Call}
    (hadmissible : Admissible live t calls) :
    ∃ l', runCalls live l calls = some l' ∧ Represents l' live (final Call.after t calls) := by
  induction calls generalizing l t with
  | nil => exact ⟨l, rfl, h⟩
  | cons call calls ih =>
      obtain ⟨hpre, hrest⟩ := hadmissible
      obtain ⟨l₁, hrun, h₁⟩ := call.run_represents h hpre
      obtain ⟨l', hruns, h'⟩ := ih h₁ hrest
      refine ⟨l', ?_, h'⟩
      rw [runCalls, hrun, Option.bind_eq_bind, Option.bind_some, hruns]

theorem hlistEmpty_eq (h : Represents l live t) {p : Addr × List Addr} (hp : p ∈ t.lists) :
    hlistEmpty l live p.1 = some p.2.isEmpty := by
  rw [hlistEmpty, load_of_live (h.head_live p hp), (h.hangs p hp).ptr, Option.bind_eq_bind,
    Option.bind_some]
  cases p.2 <;> rfl

theorem hlistUnhashed_of_not_free (h : Represents l live t) {n : Addr} (hn : ¬ t.Free n) :
    hlistUnhashed l live n = some false := by
  obtain ⟨p, hp, xs, ys, hsplit⟩ := exists_list_of_not_free hn
  have hhangs := h.hangs p hp
  have hlive := h.node_live p hp n (by simp [hsplit])
  rw [hsplit] at hhangs
  simp [hlistUnhashed, loadPprev_of_live hlive, hhangs.pprev]

theorem hlistForEach_ends (h : Represents l live t) {p : Addr × List Addr} (hp : p ∈ t.lists) :
    ∃ turns, hlistForEach l live turns p.1 = some p.2 := by
  have hhangs := h.hangs p hp
  let Inv : List Addr → Option Addr × List Addr → Prop := fun rest w =>
    w.2 ++ rest = p.2 ∧ w.1 = rest.head?
  have hturn : ∀ n rest (w : Option Addr × List Addr), Inv (n :: rest) w → w.1.isSome = true
      ∧ ∃ w', (do
          let pos ← w.1
          let next ← l.load live (.next pos)
          pure (next, w.2 ++ [pos])) = some w' ∧ Inv rest w' := by
    rintro n rest ⟨pos, noted⟩ ⟨hnoted, hpos⟩
    dsimp only at hnoted hpos
    subst hpos
    rw [← hnoted] at hhangs
    have hlive := h.node_live p hp n (by simp [← hnoted])
    have hnext : l.ptr (.next n) = rest.head? := (hangs_append.mp hhangs).2.2.2.ptr
    refine ⟨rfl, (rest.head?, noted ++ [n]), ?_, ?_, rfl⟩
    · simp only [List.head?_cons, load_of_live hlive, hnext, Option.bind_eq_bind, Option.bind_some,
        Option.pure_def]
    · rw [← hnoted, List.append_assoc, List.singleton_append]
  obtain ⟨⟨pos, noted⟩, hreaches, hnoted, hpos⟩ :=
    exists_reaches (s := (p.2.head?, [])) hturn ⟨rfl, rfl⟩
  dsimp only at hnoted hpos
  subst hpos
  rw [List.append_nil] at hnoted
  obtain ⟨turns, hrun⟩ := hreaches.ends rfl
  refine ⟨turns, ?_⟩
  rw [hlistForEach, load_of_live (h.head_live p hp), hhangs.ptr, Option.bind_eq_bind,
    Option.bind_some]
  rw [hrun, ← hnoted]
  rfl

/-- What the header tells about a table. -/
structure Reads (l : Pointers) (live : Set Place) [DecidablePred (· ∈ live)] (t : Table) : Prop where
  empty : ∀ p ∈ t.lists, hlistEmpty l live p.1 = some p.2.isEmpty
  unhashed : ∀ n, (¬ t.Free n ∨ t.mark n ≠ .loose) →
    hlistUnhashed l live n = some (decide (t.mark n = .idle))
  forEach : ∀ p ∈ t.lists, ∃ turns, hlistForEach l live turns p.1 = some p.2

theorem reads_of_represents (h : Represents l live t) : Reads l live t where
  empty := fun _ hp => hlistEmpty_eq h hp
  unhashed := by
    intro n hn
    cases hcase : t.mark n with
    | loose => exact hlistUnhashed_of_not_free h (hn.resolve_right (not_not.mpr hcase))
    | idle =>
        obtain ⟨hlive, -, hpprev⟩ := h.idle n hcase
        simp [hlistUnhashed, loadPprev_of_live hlive, hpprev]
    | fake =>
        obtain ⟨hlive, -, hpprev⟩ := h.fake n hcase
        simp [hlistUnhashed, loadPprev_of_live hlive, hpprev]
  forEach := fun _ hp => hlistForEach_ends h hp

/-- **The hash lists implement their table.** Every run of calls that the header allows has a result,
the nodes of each head hang on it in order and on no other, and what the header tells is so. -/
theorem runCalls_hangs (h : Represents l live t) {calls : List Call}
    (hadmissible : Admissible live t calls) :
    ∃ l', runCalls live l calls = some l'
      ∧ (∀ p ∈ (final Call.after t calls).lists, Hangs l' (.first p.1) p.2
        ∧ ∀ q ∈ (final Call.after t calls).lists, ∀ n ∈ p.2, n ∈ q.2 → p = q)
      ∧ Reads l' live (final Call.after t calls) := by
  obtain ⟨l', hrun, h'⟩ := runCalls_represents h hadmissible
  refine ⟨l', hrun, fun p hp => ⟨h'.hangs p hp, fun q hq n hn hn' => ?_⟩, reads_of_represents h'⟩
  exact h'.eq_of_mem hp hq hn hn'

omit [DecidablePred (· ∈ live)] in
theorem represents_empty (l : Pointers) : Represents l live ⟨[], fun _ => .loose⟩ where
  head_live := by simp
  node_live := by simp
  hangs := by simp
  idle := fun _ hn => by cases hn
  fake := fun _ hn => by cases hn

def somePlaces : Set Place :=
  {p | p ∈ [.first 1, .first 2, .next 10, .next 11, .next 12, .next 13]}

instance : DecidablePred (· ∈ somePlaces) := fun p =>
  inferInstanceAs
    (Decidable (p ∈ [Place.first 1, .first 2, .next 10, .next 11, .next 12, .next 13]))

def noPointers : Pointers := ⟨fun _ => none, fun _ => none⟩

def noTable : Table := ⟨[], fun _ => .loose⟩

/-- Of three nodes one is deleted, and the list moves to a second head; a fourth node pretends to be
on a list and is deleted. -/
def someCalls : List Call :=
  [.initHlistHead 1, .initHlistHead 2, .hlistAddHead 10 1, .hlistAddBehind 11 10,
    .hlistAddBefore 12 11, .hlistDelInit 10, .hlistMoveList 1 2, .initHlistNode 13,
    .hlistAddFake 13, .hlistDel 13]

example : (final Call.after noTable someCalls).lists = [(1, []), (2, [12, 11])] := by decide

theorem runCalls_hangs_someCalls :
    ∃ l', runCalls somePlaces noPointers someCalls = some l'
      ∧ (∀ p ∈ (final Call.after noTable someCalls).lists, Hangs l' (.first p.1) p.2
        ∧ ∀ q ∈ (final Call.after noTable someCalls).lists, ∀ n ∈ p.2, n ∈ q.2 → p = q)
      ∧ Reads l' somePlaces (final Call.after noTable someCalls) :=
  runCalls_hangs (represents_empty _) (by decide)

/-! ### Going through a list that changes -/

section Safe

variable {head : Addr} {front rest entries : List Addr} {n : Addr}

/-- The nodes that are spared stay at the end of their list. -/
theorem mem_after_of_spares (hmem : (head, front ++ rest) ∈ t.lists) {call : Call}
    (hspares : Spares head rest call) :
    ∃ front', (head, front' ++ rest) ∈ (call.after t).lists := by
  have hmap : ∀ {f : Addr × List Addr → List Addr} {front'},
      f (head, front ++ rest) = front' ++ rest →
        (head, front' ++ rest) ∈ (mapLists t f).lists := by
    intro f front' hf
    exact List.mem_map.mpr ⟨_, hmem, by rw [hf]⟩
  have herase : ∀ n ∉ rest, (front ++ rest).erase n = front.erase n ++ rest := by
    intro n hn
    rw [List.erase_append, List.erase_of_not_mem hn]
    split_ifs with hfront
    · rfl
    · rw [List.erase_of_not_mem hfront]
  cases call with
  | initHlistHead h =>
      exact ⟨front, List.mem_cons_of_mem _ (mem_forget.mpr ⟨hmem, fun heq => hspares heq.symm⟩)⟩
  | initHlistNode h => exact ⟨front, hmem⟩
  | hlistDel n => exact ⟨front.erase n, hmap (herase n hspares)⟩
  | hlistDelInit n => exact ⟨front.erase n, hmap (herase n hspares)⟩
  | hlistAddHead n h =>
      by_cases hhead : head = h
      · exact ⟨n :: front, hmap (if_pos hhead)⟩
      · exact ⟨front, hmap (if_neg hhead)⟩
  | hlistAddBefore n place =>
      refine ⟨front.flatMap fun a => if a = place then [n, a] else [a], hmap ?_⟩
      dsimp only
      rw [List.flatMap_append, ListHeads.flatMap_of_notMem (f := fun a => [n, a]) hspares]
  | hlistAddBehind n place =>
      refine ⟨front.flatMap fun a => if a = place then [a, n] else [a], hmap ?_⟩
      dsimp only
      rw [List.flatMap_append, ListHeads.flatMap_of_notMem (f := fun a => [a, n]) hspares]
  | hlistAddFake n => exact ⟨front, hmem⟩
  | hlistMoveList old new =>
      rw [Call.after]
      split
      · exact ⟨front, hmem⟩
      · refine ⟨front, List.mem_cons_of_mem _ (List.mem_cons_of_mem _ (mem_forget.mpr ⟨?_, ?_⟩))⟩
        · exact mem_forget.mpr ⟨hmem, fun heq => hspares.1 heq.symm⟩
        · exact fun heq => hspares.2 heq.symm

theorem mem_final_of_spares (hmem : (head, front ++ rest) ∈ t.lists) {calls : List Call}
    (hspares : ∀ call ∈ calls, Spares head rest call) :
    ∃ front', (head, front' ++ rest) ∈ (final Call.after t calls).lists := by
  induction calls generalizing t front with
  | nil => exact ⟨front, hmem⟩
  | cons call calls ih =>
      obtain ⟨front₁, hmem₁⟩ := mem_after_of_spares hmem (hspares call List.mem_cons_self)
      exact ih hmem₁ fun c hc => hspares c (List.mem_cons_of_mem call hc)

/-- Where the loop is when the nodes `rest` are still ahead of it. -/
structure SafeInv (live : Set Place) (t : Table) (head : Addr) (entries : List Addr)
    (fate : Addr → List Call) (rest : List Addr) (w : SafeLoop) : Prop where
  visited : w.visited ++ rest = entries
  represents : Represents w.pointers live (final Call.after t (w.visited.flatMap fate))
  mem : ∃ front, (head, front ++ rest) ∈ (final Call.after t (w.visited.flatMap fate)).lists
  admissible : Admissible live (final Call.after t (w.visited.flatMap fate)) (rest.flatMap fate)
  spares : SparesAll head fate rest
  pos : w.pos = rest.head?

theorem safeTurn_inv {fate : Addr → List Call} {w : SafeLoop}
    (hinv : SafeInv live t head entries fate (n :: rest) w) :
    w.pos.isSome = true
      ∧ ∃ w', safeTurn live fate w = some w' ∧ SafeInv live t head entries fate rest w' := by
  obtain ⟨hvisited, hrepresents, ⟨front, hmem⟩, hadmissible, hspares, hpos⟩ := hinv
  rw [List.head?_cons] at hpos
  rw [List.flatMap_cons] at hadmissible
  obtain ⟨hcalls, hlater⟩ := stepsMeet_append.mp hadmissible
  have hhangs := hrepresents.hangs _ hmem
  have hlive := hrepresents.node_live _ hmem n (by simp)
  have hnext : w.pointers.ptr (.next n) = rest.head? := (hangs_append.mp hhangs).2.2.2.ptr
  obtain ⟨pointers, hrun, hafter⟩ := runCalls_represents hrepresents hcalls
  have hfinal : final Call.after t ((w.visited ++ [n]).flatMap fate)
      = final Call.after (final Call.after t (w.visited.flatMap fate)) (fate n) := by
    rw [List.flatMap_append, List.flatMap_singleton, final_append]
  refine ⟨by rw [hpos]; rfl, ⟨pointers, rest.head?, w.visited ++ [n]⟩, ?_, ?_, ?_, ?_, ?_,
    hspares.2, rfl⟩
  · simp only [safeTurn, hpos, load_of_live hlive, hnext, hrun, Option.bind_eq_bind,
      Option.bind_some, Option.pure_def]
  · rw [← hvisited, List.append_assoc, List.singleton_append]
  · rw [hfinal]
    exact hafter
  · rw [hfinal]
    rw [List.append_cons] at hmem
    exact mem_final_of_spares hmem hspares.1
  · rw [hfinal]
    exact hlater

/-- **The safe iterator goes through the nodes that were there when it started**, whatever calls the
body makes that leave the nodes still ahead in place: the node it is at may be deleted, hung on
another head or followed and preceded by new ones. -/
theorem hlistForEachSafe_spares (h : Represents l live t) (hhead : (head, entries) ∈ t.lists)
    {fate : Addr → List Call} (hspares : SparesAll head fate entries)
    (hadmissible : Admissible live t (entries.flatMap fate)) :
    ∃ turns l', hlistForEachSafe l live fate turns head = some (l', entries)
      ∧ Represents l' live (final Call.after t (entries.flatMap fate)) := by
  have hstart : SafeInv live t head entries fate entries ⟨l, entries.head?, []⟩ :=
    ⟨rfl, h, ⟨[], hhead⟩, hadmissible, hspares, rfl⟩
  have hturn : ∀ n rest w, SafeInv live t head entries fate (n :: rest) w →
      w.pos.isSome = true ∧ ∃ w', safeTurn live fate w = some w'
        ∧ SafeInv live t head entries fate rest w' :=
    fun _ _ _ hinv => safeTurn_inv hinv
  obtain ⟨w, hreaches, hvisited, hrepresents, -, -, -, hpos⟩ := exists_reaches hturn hstart
  rw [List.append_nil] at hvisited
  obtain ⟨turns, hrun⟩ := hreaches.ends (by rw [hpos]; rfl)
  refine ⟨turns, w.pointers, ?_, hvisited ▸ hrepresents⟩
  rw [hlistForEachSafe, load_of_live (h.head_live _ hhead), (h.hangs _ hhead).ptr,
    Option.bind_eq_bind, Option.bind_some]
  rw [hrun, ← hvisited]
  rfl

def fillCalls : List Call :=
  [.initHlistHead 1, .initHlistHead 2, .hlistAddHead 10 1, .hlistAddHead 11 1, .hlistAddHead 12 1]

/-- Of three nodes the first is hung on the other head, the second is deleted, and a new node follows
the third. -/
def rehash (n : Addr) : List Call :=
  if n = 12 then [.hlistDel 12, .hlistAddHead 12 2]
  else if n = 11 then [.hlistDelInit 11] else [.hlistAddBehind 13 10]

theorem hlistForEachSafe_spares_rehash :
    ∃ l, runCalls somePlaces noPointers fillCalls = some l
      ∧ ∃ turns l', hlistForEachSafe l somePlaces rehash turns 1 = some (l', [12, 11, 10])
        ∧ Represents l' somePlaces
          (final Call.after (final Call.after noTable fillCalls) ([12, 11, 10].flatMap rehash)) := by
  have hadmissible : Admissible somePlaces noTable fillCalls := by decide
  obtain ⟨l, hrun, h⟩ := runCalls_represents (represents_empty noPointers) hadmissible
  exact ⟨l, hrun, hlistForEachSafe_spares h (by decide) (by decide) (by decide)⟩

end Safe

end Pnl.Hlist
