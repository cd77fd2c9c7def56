import Pnl.Lib.ListHeads
import Pnl.Lib.RingSegments

/-!
# Families of lists

Several lists with heads in one memory. What a program means by them is a sequence of entries for
each head; no cell is in two of them. A list that is overwritten or loses its head is forgotten, and
its cells are free again.
-/

namespace Pnl.ListHeads

open Rings

/-! ### Sequences by head -/

section Families

variable {α : Type*}

/-- Heads, each with the entries of its list. -/
abbrev ListFamily (α : Type*) := List (α × List α)

def cells (p : α × List α) : List α := p.1 :: p.2

def Free (lists : ListFamily α) (a : α) : Prop := ∀ p ∈ lists, a ∉ cells p

variable [DecidableEq α]

instance (lists : ListFamily α) (a : α) : Decidable (Free lists a) :=
  inferInstanceAs (Decidable (∀ p ∈ lists, a ∉ cells p))

def forget (lists : ListFamily α) (head : α) : ListFamily α := lists.filter fun p => p.1 ≠ head

/-- `seg` goes in after `place`, which is the head or an entry. -/
def insertAfter (place : α) (seg : List α) (p : α × List α) : α × List α :=
  (p.1, (if p.1 = place then seg else [])
    ++ p.2.flatMap fun a => if a = place then a :: seg else [a])

def insertBefore (place : α) (seg : List α) (p : α × List α) : α × List α :=
  (p.1, p.2.flatMap (fun a => if a = place then seg ++ [a] else [a])
    ++ if p.1 = place then seg else [])

/-- A cell goes out of its list. If it is the head, its list is forgotten. -/
def detach (lists : ListFamily α) (a : α) : ListFamily α :=
  (forget lists a).map fun p => (p.1, p.2.erase a)

theorem mem_forget {lists : ListFamily α} {head : α} {p : α × List α} :
    p ∈ forget lists head ↔ p ∈ lists ∧ p.1 ≠ head := by
  rw [forget, List.mem_filter, decide_eq_true_iff]

theorem forget_free {lists : ListFamily α} {a : α} (h : ∀ p ∈ lists, a ∉ p.2) :
    Free (forget lists a) a := by
  intro p hp hmem
  obtain ⟨hp, hne⟩ := mem_forget.mp hp
  rcases List.mem_cons.mp hmem with heq | hmem
  · exact hne heq.symm
  · exact h p hp hmem

theorem flatMap_of_notMem {place : α} {f : α → List α} {es : List α} (h : place ∉ es) :
    es.flatMap (fun a => if a = place then f a else [a]) = es := by
  calc
    es.flatMap (fun a => if a = place then f a else [a]) = es.flatMap fun a => [a] := by
      apply List.flatMap_congr
      intro a ha
      exact if_neg fun heq : a = place => h (heq ▸ ha)
    _ = es := List.flatMap_singleton' es

theorem insertAfter_of_notMem {place : α} {p : α × List α} (h : place ∉ cells p) (seg : List α) :
    insertAfter place seg p = p := by
  obtain ⟨hhead, hentries⟩ := not_or.mp (mt List.mem_cons.mpr h)
  rw [insertAfter, if_neg fun heq => hhead heq.symm, flatMap_of_notMem (f := (· :: seg)) hentries,
    List.nil_append]

theorem insertBefore_of_notMem {place : α} {p : α × List α} (h : place ∉ cells p)
    (seg : List α) : insertBefore place seg p = p := by
  obtain ⟨hhead, hentries⟩ := not_or.mp (mt List.mem_cons.mpr h)
  rw [insertBefore, if_neg fun heq => hhead heq.symm,
    flatMap_of_notMem (f := fun a => seg ++ [a]) hentries, List.append_nil]

omit [DecidableEq α] in
theorem exists_split {p : α × List α} {place : α} (h : place ∈ p.2) (hnodup : (cells p).Nodup) :
    ∃ before after, p.2 = before ++ place :: after ∧ place ∉ before ∧ place ∉ after
      ∧ p.1 ≠ place := by
  obtain ⟨before, after, hsplit⟩ := List.append_of_mem h
  obtain ⟨hhead, hentries⟩ := List.nodup_cons.mp hnodup
  rw [hsplit, List.nodup_append] at hentries
  refine ⟨before, after, hsplit, fun hmem => ?_, (List.nodup_cons.mp hentries.2.1).1,
    fun heq => hhead (heq ▸ h)⟩
  exact hentries.2.2 place hmem place List.mem_cons_self rfl

omit [DecidableEq α] in
theorem coe_eq_of_append (xs ys : List α) {l l' : List α} (h : l = xs ++ ys) (h' : l' = ys ++ xs) :
    (l : Cycle α) = l' := by
  rw [h, h', Cycle.coe_eq_coe]
  exact List.isRotated_append

/-- **A ring read up to `place` goes on with what was put in after it.** -/
theorem exists_insertAfter {p : α × List α} {place : α} (h : place ∈ cells p)
    (hnodup : (cells p).Nodup) :
    ∃ rest, (cells p : Cycle α) = (rest ++ [place] : List α)
      ∧ ∀ seg, (cells (insertAfter place seg p) : Cycle α) = (rest ++ [place] ++ seg : List α) := by
  rcases List.mem_cons.mp h with rfl | hmem
  · have hentries := (List.nodup_cons.mp hnodup).1
    refine ⟨p.2, Cycle.coe_cons_eq_coe_append p.2 p.1, fun seg => ?_⟩
    rw [insertAfter, if_pos rfl, flatMap_of_notMem (f := (· :: seg)) hentries, cells]
    exact coe_eq_of_append (p.1 :: seg) p.2 rfl (by simp)
  · obtain ⟨before, after, hsplit, hbefore, hafter, hne⟩ := exists_split hmem hnodup
    refine ⟨after ++ p.1 :: before, ?_, fun seg => ?_⟩
    · rw [cells, hsplit]
      exact coe_eq_of_append (p.1 :: before ++ [place]) after (by simp) (by simp)
    · rw [insertAfter, if_neg hne, hsplit, List.flatMap_append, List.flatMap_cons,
        flatMap_of_notMem (f := (· :: seg)) hbefore, flatMap_of_notMem (f := (· :: seg)) hafter,
        if_pos rfl, cells, List.nil_append]
      exact coe_eq_of_append (p.1 :: before ++ place :: seg) after (by simp)
        (by simp)

/-- **A ring read from `place` on ends with what was put in before it.** -/
theorem exists_insertBefore {p : α × List α} {place : α} (h : place ∈ cells p)
    (hnodup : (cells p).Nodup) :
    ∃ rest, (cells p : Cycle α) = (place :: rest : List α)
      ∧ ∀ seg, (cells (insertBefore place seg p) : Cycle α) = (place :: rest ++ seg : List α) := by
  rcases List.mem_cons.mp h with rfl | hmem
  · have hentries := (List.nodup_cons.mp hnodup).1
    refine ⟨p.2, rfl, fun seg => ?_⟩
    rw [insertBefore, if_pos rfl, flatMap_of_notMem (f := fun a => seg ++ [a]) hentries, cells,
      List.cons_append]
  · obtain ⟨before, after, hsplit, hbefore, hafter, hne⟩ := exists_split hmem hnodup
    refine ⟨after ++ p.1 :: before, ?_, fun seg => ?_⟩
    · rw [cells, hsplit]
      exact coe_eq_of_append (p.1 :: before) (place :: after) (by simp) (by simp)
    · rw [insertBefore, if_neg hne, hsplit, List.flatMap_append, List.flatMap_cons,
        flatMap_of_notMem (f := fun a => seg ++ [a]) hbefore,
        flatMap_of_notMem (f := fun a => seg ++ [a]) hafter, if_pos rfl, cells, List.append_nil]
      exact coe_eq_of_append (p.1 :: before ++ seg) (place :: after) (by simp)
        (by simp)

/-- A ring read from an entry on, and what is left of it without that entry. -/
theorem exists_erase {p : α × List α} {a : α} (h : a ∈ p.2) (hnodup : (cells p).Nodup) :
    ∃ rest, rest ≠ [] ∧ (cells p : Cycle α) = (a :: rest : List α)
      ∧ (cells (p.1, p.2.erase a) : Cycle α) = (rest : List α) := by
  obtain ⟨before, after, hsplit, hbefore, hafter, hne⟩ := exists_split h hnodup
  refine ⟨after ++ p.1 :: before, by simp, ?_, ?_⟩
  · rw [cells, hsplit]
    exact coe_eq_of_append (p.1 :: before) (a :: after) (by simp) (by simp)
  · rw [hsplit, List.erase_append_right _ hbefore, List.erase_cons_head, cells]
    exact coe_eq_of_append (p.1 :: before) after rfl rfl

end Families

/-! ### The lists in memory -/

section Represents

variable {α : Type*}

/-- Each head has the list it is said to have, and none of the entries is a head. -/
structure Represents (l : Links α) (live : Set α) (lists : ListFamily α) : Prop where
  isList : ∀ p ∈ lists, l.IsList live p.1 p.2
  head_notMem : ∀ p ∈ lists, ∀ q ∈ lists, q.1 ∉ p.2

variable {l l' : Links α} {live : Set α} {lists lists' : ListFamily α} {p p₀ q : α × List α} {a : α}

theorem represents_nil (l : Links α) (live : Set α) : Represents l live [] :=
  ⟨fun _ hp => absurd hp List.not_mem_nil, fun _ hp => absurd hp List.not_mem_nil⟩

/-- **No cell is in two lists.** -/
theorem Represents.eq_of_mem (h : Represents l live lists) (hp : p ∈ lists) (hq : q ∈ lists)
    (ha : a ∈ cells p) (ha' : a ∈ cells q) : p = q := by
  have hpring := (h.isList p hp).ring
  have hqring := (h.isList q hq).ring
  have hsame := hpring.eq_of_mem hqring (Cycle.mem_coe_iff.mpr ha) (Cycle.mem_coe_iff.mpr ha')
  have hhead : q.1 ∈ cells p := by
    rw [← Cycle.mem_coe_iff, cells, hsame, Cycle.mem_coe_iff]
    exact List.mem_cons_self
  have heq : q.1 = p.1 := (List.mem_cons.mp hhead).resolve_right (h.head_notMem p hp q hq)
  apply Prod.ext heq.symm
  rw [heq] at hqring
  exact hpring.eq_of_cons hqring

theorem Represents.of_subset (h : Represents l live lists) (hsub : ∀ p ∈ lists', p ∈ lists) :
    Represents l live lists' :=
  ⟨fun p hp => h.isList p (hsub p hp),
    fun p hp q hq => h.head_notMem p (hsub p hp) q (hsub q hq)⟩

theorem Represents.congr (h : Represents l live lists)
    (hsame : ∀ p ∈ lists, ∀ x ∈ cells p, l'.next x = l.next x ∧ l'.prev x = l.prev x) :
    Represents l' live lists := by
  refine ⟨fun p hp => ⟨isRing_congr (h.isList p hp).ring fun x hx => ?_, (h.isList p hp).live⟩,
    h.head_notMem⟩
  exact hsame p hp x (Cycle.mem_coe_iff.mp hx)

theorem Represents.cons (h : Represents l live lists) (hnew : l.IsList live p.1 p.2)
    (hfree : ∀ x ∈ cells p, Free lists x) : Represents l live (p :: lists) := by
  constructor
  · rintro q (_ | ⟨_, hq⟩)
    · exact hnew
    · exact h.isList q hq
  · rintro q (_ | ⟨_, hq⟩) r (_ | ⟨_, hr⟩) hmem
    · exact hnew.head_notMem hmem
    · exact hfree r.1 (List.mem_cons_of_mem p.1 hmem) r hr List.mem_cons_self
    · exact hfree p.1 List.mem_cons_self q hq (List.mem_cons_of_mem q.1 hmem)
    · exact h.head_notMem q hq r hr hmem

/-- **A change to one list.** What is new on it was free, and the pointers of the other lists stay
what they were. -/
theorem Represents.edit (h : Represents l live lists) (hp₀ : p₀ ∈ lists)
    {f : α × List α → α × List α} (hother : ∀ p ∈ lists, p ≠ p₀ → f p = p)
    (hnew : l'.IsList live (f p₀).1 (f p₀).2)
    (hcells : ∀ x ∈ cells (f p₀), x ∈ cells p₀ ∨ Free lists x)
    (hsame : ∀ p ∈ lists, p ≠ p₀ → ∀ x ∈ cells p, l'.next x = l.next x ∧ l'.prev x = l.prev x) :
    Represents l' live (lists.map f) := by
  have hdisjoint : ∀ p ∈ lists, p ≠ p₀ → ∀ x ∈ cells (f p₀), x ∉ cells p := by
    intro p hp hne x hx hmem
    rcases hcells x hx with hx | hfree
    · exact hne (h.eq_of_mem hp hp₀ hmem hx)
    · exact hfree p hp hmem
  constructor
  · intro p' hp'
    obtain ⟨p, hp, rfl⟩ := List.mem_map.mp hp'
    by_cases heq : p = p₀
    · exact heq ▸ hnew
    · rw [hother p hp heq]
      refine ⟨isRing_congr (h.isList p hp).ring fun x hx => ?_, (h.isList p hp).live⟩
      exact hsame p hp heq x (Cycle.mem_coe_iff.mp hx)
  · intro p' hp' q' hq' hmem
    obtain ⟨p, hp, rfl⟩ := List.mem_map.mp hp'
    obtain ⟨q, hq, rfl⟩ := List.mem_map.mp hq'
    by_cases hpeq : p = p₀ <;> by_cases hqeq : q = p₀
    · rw [hpeq, hqeq] at hmem
      exact hnew.head_notMem hmem
    · rw [hpeq, hother q hq hqeq] at hmem
      exact hdisjoint q hq hqeq q.1 (List.mem_cons_of_mem _ hmem) List.mem_cons_self
    · rw [hqeq, hother p hp hpeq] at hmem
      exact hdisjoint p hp hpeq _ List.mem_cons_self (List.mem_cons_of_mem _ hmem)
    · rw [hother p hp hpeq, hother q hq hqeq] at hmem
      exact h.head_notMem p hp q hq hmem

/-- **Free cells in a row go between two neighbours.** -/
theorem Represents.join (h : Represents l live lists) (hp₀ : p₀ ∈ lists) {xs ys : List α}
    {prev next first last : α} (hcells : (cells p₀ : Cycle α) = (xs : List α))
    (hxs : Segment l.next l.prev xs next prev) (hys : Segment l.next l.prev ys first last)
    (hnodup : ys.Nodup) (hlive : ∀ y ∈ ys, y ∈ live) (hfree : ∀ y ∈ ys, Free lists y)
    {f : α × List α → α × List α} (hother : ∀ p ∈ lists, p ≠ p₀ → f p = p)
    (hf : (cells (f p₀) : Cycle α) = (xs ++ ys : List α))
    (hin : Linked l'.next l'.prev prev first) (hout : Linked l'.next l'.prev last next)
    (hnext : ∀ x, x ≠ prev → x ≠ last → l'.next x = l.next x)
    (hprev : ∀ x, x ≠ next → x ≠ first → l'.prev x = l.prev x) :
    Represents l' live (lists.map f) := by
  have hmem : ∀ x, x ∈ xs ↔ x ∈ cells p₀ := by
    intro x
    rw [← Cycle.mem_coe_iff, ← hcells, Cycle.mem_coe_iff]
  have hmem' : ∀ x, x ∈ cells (f p₀) ↔ x ∈ cells p₀ ∨ x ∈ ys := by
    intro x
    rw [← Cycle.mem_coe_iff, hf, Cycle.mem_coe_iff, List.mem_append, hmem]
  have hxsnodup : xs.Nodup := by
    have hring : (cells p₀ : Cycle α).Nodup := (h.isList p₀ hp₀).ring.nodup
    rwa [hcells, Cycle.nodup_coe_iff] at hring
  apply h.edit hp₀ hother
  · refine ⟨?_, fun x hx => ?_⟩
    · change IsRing _ _ (cells (f p₀) : Cycle α)
      rw [hf]
      apply isRing_join hxs hys ?_ hin hout (fun x _ => hnext x) fun x _ => hprev x
      rw [List.nodup_append]
      refine ⟨hxsnodup, hnodup, fun x hx y hy heq => ?_⟩
      exact hfree y hy p₀ hp₀ (heq ▸ (hmem x).mp hx)
    · rcases (hmem' x).mp hx with hx | hx
      · exact (h.isList p₀ hp₀).live x hx
      · exact hlive x hx
  · exact fun x hx => ((hmem' x).mp hx).imp_right (hfree x)
  · intro p hp hne x hx
    have hoff : ∀ y ∈ xs, x ≠ y := fun y hy heq =>
      hne (h.eq_of_mem hp hp₀ hx (heq ▸ (hmem y).mp hy))
    have hoff' : ∀ y ∈ ys, x ≠ y := fun y hy heq => hfree y hy p hp (heq ▸ hx)
    exact ⟨hnext x (hoff prev hxs.last_mem) (hoff' last hys.last_mem),
      hprev x (hoff next hxs.head_mem) (hoff' first hys.head_mem)⟩

variable [DecidableEq α]

theorem Represents.forget (h : Represents l live lists) (head : α) :
    Represents l live (forget lists head) :=
  h.of_subset fun _ hp => (mem_forget.mp hp).1

/-- A free cell can be written to. -/
theorem Represents.write (h : Represents l live lists) (hfree : Free lists a) (next prev : α) :
    Represents { next := Function.update l.next a next, prev := Function.update l.prev a prev }
      live lists := by
  apply h.congr
  intro p hp x hx
  have hne : x ≠ a := fun heq => hfree p hp (heq ▸ hx)
  exact ⟨Function.update_of_ne hne _ _, Function.update_of_ne hne _ _⟩

end Represents

/-! ### What the operations do to a family -/

section Rules

variable {α : Type*} [DecidableEq α] {l : Links α} {live : Set α} [DecidablePred (· ∈ live)]
  {lists : ListFamily α} {p₀ : α × List α} {a : α}

theorem Represents.initListHead (h : Represents l live lists) (hlive : a ∈ live)
    (hentry : ∀ p ∈ lists, a ∉ p.2) :
    ∃ l', l.initListHead live a = some l'
      ∧ Represents l' live ((a, []) :: ListHeads.forget lists a) := by
  have hfree := forget_free hentry
  refine ⟨{ next := Function.update l.next a a, prev := Function.update l.prev a a }, ?_, ?_⟩
  · rw [Links.initListHead, setNext_of_live hlive, Option.bind_eq_bind, Option.bind_some,
      setPrev_of_live hlive]
  · apply ((h.forget a).write hfree a a).cons
    · refine ⟨?_, by simpa using hlive⟩
      exact isRing_singleton (Function.update_self _ _ _) (Function.update_self _ _ _)
    · intro x hx
      rw [cells, List.mem_singleton] at hx
      exact hx ▸ hfree

/-- **`__list_add` closes the ring around a free cell.** -/
theorem Represents.insert (h : Represents l live lists) (hp₀ : p₀ ∈ lists) {xs : List α}
    {prev next new : α} (hcells : (cells p₀ : Cycle α) = (xs : List α))
    (hseg : Segment l.next l.prev xs next prev) (hnew : new ∈ live) (hfree : Free lists new)
    {f : α × List α → α × List α} (hother : ∀ p ∈ lists, p ≠ p₀ → f p = p)
    (hf : (cells (f p₀) : Cycle α) = (xs ++ [new] : List α)) :
    ∃ l', l.insert live new prev next = some l' ∧ Represents l' live (lists.map f) := by
  have hmem : ∀ x ∈ xs, x ∈ cells p₀ := fun x hx =>
    Cycle.mem_coe_iff.mp (hcells ▸ Cycle.mem_coe_iff.mpr hx)
  have hlive : ∀ x ∈ xs, x ∈ live := fun x hx => (h.isList p₀ hp₀).live x (hmem x hx)
  have hne : ∀ x ∈ xs, x ≠ new := fun x hx heq => hfree p₀ hp₀ (heq ▸ hmem x hx)
  refine ⟨{ next := Function.update (Function.update l.next new next) prev new
            prev := Function.update (Function.update l.prev next new) new prev }, ?_, ?_⟩
  · simp only [Links.insert, setPrev_of_live (hlive next hseg.head_mem), setNext_of_live hnew,
      setPrev_of_live hnew, setNext_of_live (hlive prev hseg.last_mem), Option.bind_eq_bind,
      Option.bind_some]
  · apply h.join hp₀ hcells hseg (segment_singleton l.next l.prev new) (List.nodup_singleton new)
      (by simpa using hnew) (by simpa using hfree) hother hf <;> dsimp only
    · exact ⟨Function.update_self _ _ _, Function.update_self _ _ _⟩
    · constructor
      · rw [Function.update_of_ne (hne prev hseg.last_mem).symm, Function.update_self]
      · rw [Function.update_of_ne (hne next hseg.head_mem), Function.update_self]
    · intro x hxprev hxnew
      rw [Function.update_of_ne hxprev, Function.update_of_ne hxnew]
    · intro x hxnext hxnew
      rw [Function.update_of_ne hxnew, Function.update_of_ne hxnext]

/-- **`__list_del_entry` takes a cell out of the list it is in.** -/
theorem Represents.listDelEntry (h : Represents l live lists) (hp₀ : p₀ ∈ lists)
    (ha : a ∈ cells p₀) :
    ∃ l', l.listDelEntry live a = some l' ∧ Represents l' live (detach lists a)
      ∧ Free (detach lists a) a := by
  have hlist := h.isList p₀ hp₀
  have hring : IsRing l.next l.prev (cells p₀ : Cycle α) := hlist.ring
  have hcell := Cycle.mem_coe_iff.mpr ha
  have hnext := Cycle.mem_coe_iff.mp (hring.next_mem hcell)
  have hprev := Cycle.mem_coe_iff.mp (hring.prev_mem hcell)
  have hsame : ∀ p ∈ lists, p ≠ p₀ → ∀ x ∈ cells p,
      (l.unlinked a).next x = l.next x ∧ (l.unlinked a).prev x = l.prev x := by
    intro p hp hne x hx
    have hout : x ∉ cells p₀ := fun hmem => hne (h.eq_of_mem hp hp₀ hx hmem)
    exact ⟨Function.update_of_ne (fun heq : x = l.prev a => hout (heq ▸ hprev)) _ _,
      Function.update_of_ne (fun heq : x = l.next a => hout (heq ▸ hnext)) _ _⟩
  have hother : ∀ p ∈ lists, p ≠ p₀ → (p.1, p.2.erase a) = p := by
    intro p hp hne
    have hout : a ∉ p.2 :=
      fun hmem => hne (h.eq_of_mem hp hp₀ (List.mem_cons_of_mem p.1 hmem) ha)
    rw [List.erase_of_not_mem hout]
  have herase : ∀ x ∈ cells (p₀.1, p₀.2.erase a), x ∈ cells p₀ := fun x hx =>
    List.cons_subset_cons p₀.1 List.erase_subset hx
  refine ⟨l.unlinked a, listDelEntry_eq (hlist.live a ha) (hlist.live _ hprev)
    (hlist.live _ hnext), ?_, ?_⟩
  · by_cases hhead : p₀.1 = a
    · -- nothing is left of the list but entries without a head
      have hne : ∀ p ∈ ListHeads.forget lists a, p ≠ p₀ := by
        rintro p hp rfl
        exact (mem_forget.mp hp).2 hhead
      have hmap : detach lists a = ListHeads.forget lists a := by
        rw [detach, List.map_congr_left (g := id), List.map_id]
        exact fun p hp => hother p (mem_forget.mp hp).1 (hne p hp)
      rw [hmap]
      exact (h.forget a).congr fun p hp => hsame p (mem_forget.mp hp).1 (hne p hp)
    · have hmem : a ∈ p₀.2 := (List.mem_cons.mp ha).resolve_left fun heq => hhead heq.symm
      apply (h.forget a).edit (mem_forget.mpr ⟨hp₀, hhead⟩)
        (fun p hp => hother p (mem_forget.mp hp).1)
      · refine ⟨?_, fun x hx => hlist.live x (herase x hx)⟩
        obtain ⟨rest, hne, hcells, hcells'⟩ := exists_erase hmem hlist.nodup
        change IsRing _ _ (cells (p₀.1, p₀.2.erase a) : Cycle α)
        rw [hcells] at hring
        rw [hcells']
        obtain ⟨hrest, hout, hnodup⟩ := hring.rest hne
        apply isRing_close hrest hnodup
        · exact ⟨Function.update_self _ _ _, Function.update_self _ _ _⟩
        · exact fun x _ hx => Function.update_of_ne hx _ _
        · exact fun x _ hx => Function.update_of_ne hx _ _
      · exact fun x hx => Or.inl (herase x hx)
      · exact fun p hp => hsame p (mem_forget.mp hp).1
  · intro p hp
    obtain ⟨q, hq, rfl⟩ := List.mem_map.mp hp
    obtain ⟨hq, hne⟩ := mem_forget.mp hq
    have hnodup := (List.nodup_cons.mp (h.isList q hq).nodup).2
    rw [cells, List.mem_cons, not_or]
    exact ⟨Ne.symm hne, hnodup.not_mem_erase⟩

end Rules

end Pnl.ListHeads
