import Pnl.ListH

/-!
# What each call of the list header does

Each operation of `list.h` on the lists in memory is the operation on the sequences of entries that
it is named after.
-/

namespace Pnl.ListH

open ListHeads Rings

variable {l : Links Addr} {live : Set Addr} [DecidablePred (· ∈ live)] {lists : ListFamily Addr}

/-! ### Adding -/

omit [DecidablePred (· ∈ live)] in
theorem other_of_place (h : Represents l live lists) {p₀ : Addr × List Addr} (hp₀ : p₀ ∈ lists)
    {place : Addr} (hplace : place ∈ cells p₀) :
    ∀ p ∈ lists, p ≠ p₀ → place ∉ cells p :=
  fun _ hp hne hmem => hne (h.eq_of_mem hp hp₀ hmem hplace)

theorem listAdd_represents (h : Represents l live lists) {new place : Addr} (hnew : new ∈ live)
    (hfree : Free lists new) (hplace : Placed lists place) :
    ∃ l', listAdd l live new place = some l'
      ∧ Represents l' live (lists.map (insertAfter place [new])) := by
  obtain ⟨p₀, hp₀, hmem⟩ := hplace
  have hlist := h.isList p₀ hp₀
  obtain ⟨rest, hcells, hinsert⟩ := exists_insertAfter hmem hlist.nodup
  have hring : IsRing l.next l.prev (cells p₀ : Cycle Addr) := hlist.ring
  rw [hcells] at hring
  obtain ⟨l', hrun, h'⟩ := h.insert hp₀ hcells hring.segment_concat.1 hnew hfree
    (fun p hp hne => insertAfter_of_notMem (other_of_place h hp₀ hmem p hp hne) [new])
    (hinsert [new])
  refine ⟨l', ?_, h'⟩
  rw [listAdd, getNext_of_live (hlist.live place hmem), Option.bind_eq_bind, Option.bind_some, hrun]

theorem listAddTail_represents (h : Represents l live lists) {new place : Addr}
    (hnew : new ∈ live) (hfree : Free lists new) (hplace : Placed lists place) :
    ∃ l', l.listAddTail live new place = some l'
      ∧ Represents l' live (lists.map (insertBefore place [new])) := by
  obtain ⟨p₀, hp₀, hmem⟩ := hplace
  have hlist := h.isList p₀ hp₀
  obtain ⟨rest, hcells, hinsert⟩ := exists_insertBefore hmem hlist.nodup
  have hring : IsRing l.next l.prev (cells p₀ : Cycle Addr) := hlist.ring
  rw [hcells] at hring
  obtain ⟨l', hrun, h'⟩ := h.insert hp₀ hcells hring.segment_cons.1 hnew hfree
    (fun p hp hne => insertBefore_of_notMem (other_of_place h hp₀ hmem p hp hne) [new])
    (hinsert [new])
  refine ⟨l', ?_, h'⟩
  rw [Links.listAddTail, getPrev_of_live (hlist.live place hmem), Option.bind_eq_bind,
    Option.bind_some, hrun]

/-! ### Deleting and moving -/

theorem forget_of_free {a : Addr} (hfree : Free lists a) : forget lists a = lists := by
  rw [forget, List.filter_eq_self]
  intro p hp
  rw [decide_eq_true_iff]
  exact fun heq => hfree p hp (heq ▸ List.mem_cons_self)

omit [DecidablePred (· ∈ live)] in
theorem Placed.mem_live (h : Represents l live lists) {place : Addr} (hplace : Placed lists place) :
    place ∈ live := by
  obtain ⟨p, hp, hmem⟩ := hplace
  exact (h.isList p hp).live place hmem

theorem listDel_represents (h : Represents l live lists) {entry : Addr}
    (hentry : Placed lists entry) :
    ∃ l', listDel l live entry = some l' ∧ Represents l' live (detach lists entry) := by
  have hlive := hentry.mem_live h
  obtain ⟨p₀, hp₀, hmem⟩ := hentry
  obtain ⟨l₁, hrun, h₁, hfree⟩ := h.listDelEntry hp₀ hmem
  refine ⟨_, ?_, h₁.write hfree listPoison1 listPoison2⟩
  simp only [listDel, Links.listDel, hrun, setNext_of_live hlive, setPrev_of_live hlive,
    Option.bind_eq_bind, Option.bind_some]

theorem listDelInit_represents (h : Represents l live lists) {entry : Addr}
    (hentry : Placed lists entry) :
    ∃ l', l.listDelInit live entry = some l'
      ∧ Represents l' live ((entry, []) :: detach lists entry) := by
  have hlive := hentry.mem_live h
  obtain ⟨p₀, hp₀, hmem⟩ := hentry
  obtain ⟨l₁, hrun, h₁, hfree⟩ := h.listDelEntry hp₀ hmem
  obtain ⟨l₂, hinit, h₂⟩ := h₁.initListHead hlive
    fun p hp hin => hfree p hp (List.mem_cons_of_mem p.1 hin)
  rw [forget_of_free hfree] at h₂
  refine ⟨l₂, ?_, h₂⟩
  rw [Links.listDelInit, hrun, Option.bind_eq_bind, Option.bind_some, hinit]

theorem listMove_represents (h : Represents l live lists) {list head : Addr}
    (hlist : Placed lists list) (hhead : Placed (detach lists list) head) :
    ∃ l', listMove l live list head = some l'
      ∧ Represents l' live ((detach lists list).map (insertAfter head [list])) := by
  have hlive := hlist.mem_live h
  obtain ⟨p₀, hp₀, hmem⟩ := hlist
  obtain ⟨l₁, hrun, h₁, hfree⟩ := h.listDelEntry hp₀ hmem
  obtain ⟨l₂, hadd, h₂⟩ := listAdd_represents h₁ hlive hfree hhead
  refine ⟨l₂, ?_, h₂⟩
  rw [listMove, hrun, Option.bind_eq_bind, Option.bind_some, hadd]

theorem listMoveTail_represents (h : Represents l live lists) {list head : Addr}
    (hlist : Placed lists list) (hhead : Placed (detach lists list) head) :
    ∃ l', listMoveTail l live list head = some l'
      ∧ Represents l' live ((detach lists list).map (insertBefore head [list])) := by
  have hlive := hlist.mem_live h
  obtain ⟨p₀, hp₀, hmem⟩ := hlist
  obtain ⟨l₁, hrun, h₁, hfree⟩ := h.listDelEntry hp₀ hmem
  obtain ⟨l₂, hadd, h₂⟩ := listAddTail_represents h₁ hlive hfree hhead
  refine ⟨l₂, ?_, h₂⟩
  rw [listMoveTail, hrun, Option.bind_eq_bind, Option.bind_some, hadd]

/-! ### Queries -/

theorem listEmpty_eq (h : Represents l live lists) {p : Addr × List Addr} (hp : p ∈ lists) :
    listEmpty l live p.1 = some (p.2.isEmpty) := by
  have hlist := h.isList p hp
  rw [listEmpty, getNext_of_live (hlist.live p.1 List.mem_cons_self), Option.bind_eq_bind,
    Option.bind_some, Option.pure_def, Option.some.injEq, Bool.eq_iff_iff, decide_eq_true_iff,
    List.isEmpty_iff]
  have hforward := hlist.forward
  cases hentries : p.2 with
  | nil => simpa using (hentries ▸ hforward).eq_last
  | cons a rest => simpa using (hentries ▸ hforward).ne_last

theorem listEmpty_eq_cons (h : Represents l live lists) {head a : Addr} {rest : List Addr}
    (hp : (head, a :: rest) ∈ lists) :
    listEmpty l live head = some false ∧ l.getNext live head = some a := by
  have hlist := h.isList _ hp
  refine ⟨listEmpty_eq h hp, ?_⟩
  rw [getNext_of_live (hlist.live head List.mem_cons_self), hlist.forward.eq]

theorem listIsSingular_eq (h : Represents l live lists) {p : Addr × List Addr} (hp : p ∈ lists) :
    listIsSingular l live p.1 = some (decide (p.2.length = 1)) := by
  have hlist := h.isList p hp
  have hhead := hlist.live p.1 List.mem_cons_self
  rw [listIsSingular, listEmpty_eq h hp]
  obtain ⟨head, entries⟩ := p
  cases entries with
  | nil => rfl
  | cons a rest =>
      obtain ⟨hseg, -, hnodup⟩ := hlist.ring.rest (List.cons_ne_nil a rest)
      simp only [List.isEmpty_cons, Bool.false_eq_true, if_false, getNext_of_live hhead,
        getPrev_of_live hhead, Option.bind_eq_bind, Option.bind_some, Option.pure_def,
        hseg.length_eq_one hnodup]

theorem listRotateLeft_represents (h : Represents l live lists) {p₀ : Addr × List Addr}
    (hp₀ : p₀ ∈ lists) :
    ∃ l', listRotateLeft l live p₀.1 = some l'
      ∧ Represents l' live
        (lists.map fun p => if p.1 = p₀.1 then (p₀.1, p.2.rotate 1) else p) := by
  have hunique : ∀ p ∈ lists, p.1 = p₀.1 → p = p₀ := fun p hp heq =>
    h.eq_of_mem hp hp₀ List.mem_cons_self (heq ▸ List.mem_cons_self)
  obtain ⟨head, entries⟩ := p₀
  have hempty := listEmpty_eq h hp₀
  cases entries with
  | nil =>
      refine ⟨l, ?_, ?_⟩
      · rw [listRotateLeft, hempty]
        rfl
      · rw [List.map_congr_left (g := id), List.map_id]
        · exact h
        · intro p hp
          split
          · next heq => rw [hunique p hp heq]; rfl
          · rfl
  | cons first rest =>
      have hnodup := (h.isList _ hp₀).nodup
      have hfirst : first ∈ cells (head, first :: rest) := by simp [cells]
      have hne : head ≠ first := fun heq => (List.nodup_cons.mp hnodup).1 (heq ▸ List.mem_cons_self)
      have hin : (head, rest) ∈ detach lists first :=
        List.mem_map.mpr ⟨_, mem_forget.mpr ⟨hp₀, hne⟩, by simp⟩
      obtain ⟨l', hrun, h'⟩ := listMoveTail_represents h ⟨_, hp₀, hfirst⟩
        ⟨_, hin, List.mem_cons_self⟩
      refine ⟨l', ?_, ?_⟩
      · rw [listRotateLeft, (listEmpty_eq_cons h hp₀).1, Option.bind_eq_bind, Option.bind_some,
          if_neg Bool.false_ne_true, (listEmpty_eq_cons h hp₀).2, Option.bind_eq_bind,
          Option.bind_some, hrun]
      · have hforget : forget lists first = lists := by
          rw [forget, List.filter_eq_self]
          intro p hp
          rw [decide_eq_true_iff]
          intro heq
          exact h.head_notMem _ hp₀ p hp (heq ▸ List.mem_cons_self)
        convert h' using 1
        rw [detach, hforget, List.map_map]
        apply List.map_congr_left
        intro p hp
        dsimp only [Function.comp_apply]
        split
        · next heq =>
            rw [hunique p hp heq, List.erase_cons_head, insertBefore, if_pos rfl,
              flatMap_of_notMem fun hmem =>
                (List.nodup_cons.mp hnodup).1 (List.mem_cons_of_mem first hmem),
              List.rotate_cons_succ, List.rotate_zero]
        · next heq =>
            have hout : ∀ a ∈ cells (head, first :: rest), a ∉ cells p := fun a ha hmem =>
              heq (congrArg Prod.fst (h.eq_of_mem hp hp₀ hmem ha))
            rw [List.erase_of_not_mem fun hmem =>
                hout first hfirst (List.mem_cons_of_mem p.1 hmem),
              insertBefore_of_notMem (hout head List.mem_cons_self)]

/-! ### Replacing -/

theorem replace_of_notMem {old : Addr} {p : Addr × List Addr} (h : old ∉ cells p) (new : Addr) :
    replace old new p = p := by
  obtain ⟨hhead, hentries⟩ := not_or.mp (mt List.mem_cons.mpr h)
  rw [replace, if_neg fun heq => hhead heq.symm, List.map_congr_left (g := id), List.map_id]
  intro a ha
  exact if_neg fun heq : a = old => hentries (heq ▸ ha)

theorem exists_replace {old : Addr} {p : Addr × List Addr} (h : old ∈ cells p)
    (hnodup : (cells p).Nodup) (new : Addr) :
    ∃ rest, (cells p : Cycle Addr) = (old :: rest : List Addr)
      ∧ (cells (replace old new p) : Cycle Addr) = (new :: rest : List Addr) := by
  have hmap : ∀ as : List Addr, old ∉ as → (as.map fun a => if a = old then new else a) = as := by
    intro as has
    rw [List.map_congr_left (g := id), List.map_id]
    intro a ha
    exact if_neg fun heq : a = old => has (heq ▸ ha)
  rcases List.mem_cons.mp h with rfl | hmem
  · refine ⟨p.2, rfl, ?_⟩
    rw [replace, if_pos rfl, hmap p.2 (List.nodup_cons.mp hnodup).1, cells]
  · obtain ⟨before, after, hsplit, hbefore, hafter, hne⟩ := exists_split hmem hnodup
    refine ⟨after ++ p.1 :: before, ?_, ?_⟩
    · rw [cells, hsplit]
      exact coe_eq_of_append (p.1 :: before) (old :: after) (by simp) (by simp)
    · rw [replace, if_neg hne, hsplit, List.map_append, List.map_cons, hmap before hbefore,
        hmap after hafter, if_pos rfl, cells]
      exact coe_eq_of_append (p.1 :: before) (new :: after) (by simp) (by simp)

/-- What `list_replace` reads as `old->prev`. When `old` is alone, it has already been written. -/
def prevOfOld (l : Links Addr) (old new : Addr) : Addr :=
  Function.update l.prev (l.next old) new old

def replaced (l : Links Addr) (old new : Addr) : Links Addr where
  next := Function.update (Function.update l.next new (l.next old)) (prevOfOld l old new) new
  prev := Function.update (Function.update l.prev (l.next old) new) new (prevOfOld l old new)

theorem listReplace_eq {old new : Addr} (hold : old ∈ live) (hnew : new ∈ live)
    (hnext : l.next old ∈ live) (hprev : prevOfOld l old new ∈ live) :
    listReplace l live old new = some (replaced l old new) := by
  have hread : Function.update l.prev (l.next old) new old = prevOfOld l old new := rfl
  simp only [listReplace, getNext_of_live hold, setNext_of_live hnew, getNext_of_live hnew,
    Function.update_self, setPrev_of_live hnext, getPrev_of_live hold, setPrev_of_live hnew,
    getPrev_of_live hnew, hread, setNext_of_live hprev, Option.bind_eq_bind, Option.bind_some]
  rfl

theorem prevOfOld_cases (new : Addr) {old : Addr} {rest : List Addr}
    (hring : IsRing l.next l.prev (old :: rest : List Addr)) :
    rest = [] ∧ prevOfOld l old new = new
      ∨ rest ≠ [] ∧ prevOfOld l old new = l.prev old := by
  by_cases hrest : rest = []
  · subst hrest
    have hnext : l.next old = old := hring.ahead.eq_last
    exact Or.inl ⟨rfl, by rw [prevOfOld, hnext, Function.update_self]⟩
  · obtain ⟨hseg, hout, -⟩ := hring.rest hrest
    have hne : old ≠ l.next old := fun heq => hout (heq ▸ hseg.head_mem)
    exact Or.inr ⟨hrest, Function.update_of_ne hne _ _⟩

theorem replaced_isRing {old new : Addr} {rest : List Addr}
    (hring : IsRing l.next l.prev (old :: rest : List Addr)) (hnew : new ∉ old :: rest) :
    IsRing (replaced l old new).next (replaced l old new).prev (new :: rest : List Addr) := by
  dsimp only [replaced]
  rcases prevOfOld_cases new hring with ⟨rfl, hprev⟩ | ⟨hrest, hprev⟩
  · rw [hprev]
    exact isRing_singleton (Function.update_self _ _ _) (Function.update_self _ _ _)
  · obtain ⟨hseg, -, hnodup⟩ := hring.rest hrest
    have hne : ∀ x ∈ rest, x ≠ new := fun x hx heq => hnew (heq ▸ List.mem_cons_of_mem old hx)
    rw [hprev, Cycle.coe_cons_eq_coe_append]
    apply isRing_join hseg (segment_singleton l.next l.prev new)
    · rw [List.nodup_append_comm]
      exact List.nodup_cons.mpr ⟨fun hmem => hnew (List.mem_cons_of_mem old hmem), hnodup⟩
    · exact ⟨Function.update_self _ _ _, Function.update_self _ _ _⟩
    · constructor
      · rw [Function.update_of_ne (hne _ hseg.last_mem).symm, Function.update_self]
      · rw [Function.update_of_ne (hne _ hseg.head_mem), Function.update_self]
    · intro x _ hxprev hxnew
      rw [Function.update_of_ne hxprev, Function.update_of_ne hxnew]
    · intro x _ hxnext hxnew
      rw [Function.update_of_ne hxnew, Function.update_of_ne hxnext]

theorem listReplace_represents (h : Represents l live lists) {old new : Addr} (hnew : new ∈ live)
    (hfree : Free lists new) (hold : Placed lists old) :
    ∃ l', listReplace l live old new = some l'
      ∧ Represents l' live (lists.map (replace old new)) ∧ Free (lists.map (replace old new)) old := by
  have holdlive := hold.mem_live h
  obtain ⟨p₀, hp₀, hmem⟩ := hold
  have hlist := h.isList p₀ hp₀
  have hring : IsRing l.next l.prev (cells p₀ : Cycle Addr) := hlist.ring
  have hnext := Cycle.mem_coe_iff.mp (hring.next_mem (Cycle.mem_coe_iff.mpr hmem))
  have hprev := Cycle.mem_coe_iff.mp (hring.prev_mem (Cycle.mem_coe_iff.mpr hmem))
  obtain ⟨rest, hcells, hreplace⟩ := exists_replace hmem hlist.nodup new
  have hmem' : ∀ x, x ∈ cells p₀ ↔ x ∈ old :: rest := by
    intro x
    rw [← Cycle.mem_coe_iff, hcells, Cycle.mem_coe_iff]
  have hnewcells : ∀ x, x ∈ cells (replace old new p₀) ↔ x ∈ new :: rest := by
    intro x
    rw [← Cycle.mem_coe_iff, hreplace, Cycle.mem_coe_iff]
  have hnotin : new ∉ old :: rest := fun hin => hfree p₀ hp₀ ((hmem' new).mpr hin)
  have hother : ∀ p ∈ lists, p ≠ p₀ → old ∉ cells p := other_of_place h hp₀ hmem
  rw [hcells] at hring
  have hq : prevOfOld l old new = new ∨ prevOfOld l old new = l.prev old :=
    (prevOfOld_cases new hring).imp And.right And.right
  have hqlive : prevOfOld l old new ∈ live := by
    rcases hq with hq | hq <;> rw [hq]
    · exact hnew
    · exact hlist.live _ hprev
  refine ⟨_, listReplace_eq holdlive hnew (hlist.live _ hnext) hqlive, ?_, ?_⟩
  · apply h.edit hp₀ fun p hp hne => replace_of_notMem (hother p hp hne) new
    · refine ⟨?_, fun x hx => ?_⟩
      · change IsRing _ _ (cells (replace old new p₀) : Cycle Addr)
        rw [hreplace]
        exact replaced_isRing hring hnotin
      · rcases List.mem_cons.mp ((hnewcells x).mp hx) with rfl | hx
        · exact hnew
        · exact hlist.live x ((hmem' x).mpr (List.mem_cons_of_mem old hx))
    · intro x hx
      rcases List.mem_cons.mp ((hnewcells x).mp hx) with rfl | hx
      · exact Or.inr hfree
      · exact Or.inl ((hmem' x).mpr (List.mem_cons_of_mem old hx))
    · intro p hp hne x hx
      have hout : x ∉ cells p₀ := fun hmem => hne (h.eq_of_mem hp hp₀ hx hmem)
      have hxnew : x ≠ new := fun heq => hfree p hp (heq ▸ hx)
      have hxprev : x ≠ prevOfOld l old new := by
        rcases hq with hq | hq <;> rw [hq]
        · exact hxnew
        · exact fun heq => hout (heq ▸ hprev)
      dsimp only [replaced]
      rw [Function.update_of_ne hxprev, Function.update_of_ne hxnew, Function.update_of_ne hxnew,
        Function.update_of_ne fun heq : x = l.next old => hout (heq ▸ hnext)]
      exact ⟨rfl, rfl⟩
  · intro p' hp'
    obtain ⟨p, hp, rfl⟩ := List.mem_map.mp hp'
    by_cases heq : p = p₀
    · rw [heq, hnewcells]
      intro hin
      rcases List.mem_cons.mp hin with rfl | hin
      · exact hnotin List.mem_cons_self
      · exact (hring.rest (List.ne_nil_of_mem hin)).2.1 hin
    · rw [replace_of_notMem (hother p hp heq)]
      exact hother p hp heq

theorem listReplaceInit_represents (h : Represents l live lists) {old new : Addr}
    (hnew : new ∈ live) (hfree : Free lists new) (hold : Placed lists old) :
    ∃ l', listReplaceInit l live old new = some l'
      ∧ Represents l' live ((old, []) :: lists.map (replace old new)) := by
  obtain ⟨l₁, hrun, h₁, hfree₁⟩ := listReplace_represents h hnew hfree hold
  obtain ⟨l₂, hinit, h₂⟩ := h₁.initListHead (hold.mem_live h)
    fun p hp hin => hfree₁ p hp (List.mem_cons_of_mem p.1 hin)
  rw [forget_of_free hfree₁] at h₂
  refine ⟨l₂, ?_, h₂⟩
  rw [listReplaceInit, hrun, Option.bind_eq_bind, Option.bind_some, hinit]

/-! ### Joining -/

omit [DecidablePred (· ∈ live)] in
theorem lookup_of_mem (h : Represents l live lists) {p : Addr × List Addr} (hp : p ∈ lists) :
    lists.lookup p.1 = some p.2 := by
  obtain ⟨before, after, hsplit⟩ := List.append_of_mem hp
  by_cases hsome : (before.lookup p.1).isSome
  · obtain ⟨es, hes⟩ := Option.isSome_iff_exists.mp hsome
    obtain ⟨xs, ys, hbefore, -⟩ := List.lookup_eq_some_iff.mp hes
    have hq : (p.1, es) ∈ lists := by simp [hsplit, hbefore]
    have heq := h.eq_of_mem hq hp List.mem_cons_self List.mem_cons_self
    rw [hsplit, List.lookup_append, hes, Option.some_or, ← heq]
  · rw [Bool.not_eq_true, Option.isSome_eq_false_iff, Option.isNone_iff_eq_none] at hsome
    rw [hsplit, List.lookup_append, hsome, Option.none_or]
    exact List.lookup_cons_self

/-- **`__list_splice` puts the entries of `list` between two neighbours**, and leaves `list`
alone. -/
theorem splice_represents (h : Represents l live lists) {list : Addr} {seg : List Addr}
    (hlist : (list, seg) ∈ lists) (hne : seg ≠ []) {p₀ : Addr × List Addr}
    (hp₀ : p₀ ∈ forget lists list) {xs : List Addr} {prev next : Addr}
    (hcells : (cells p₀ : Cycle Addr) = (xs : List Addr))
    (hxs : Segment l.next l.prev xs next prev) {f : Addr × List Addr → Addr × List Addr}
    (hother : ∀ p ∈ forget lists list, p ≠ p₀ → f p = p)
    (hf : (cells (f p₀) : Cycle Addr) = (xs ++ seg : List Addr)) :
    ∃ l', splice l live list prev next = some l'
      ∧ Represents l' live ((forget lists list).map f) ∧ list ∈ live
      ∧ Free ((forget lists list).map f) list := by
  have hring := (h.isList _ hlist).ring
  have hlive := (h.isList _ hlist).live
  obtain ⟨hseg, hout, hnodup⟩ := hring.rest hne
  have hentries : ∀ p ∈ lists, list ∉ p.2 := fun p hp => h.head_notMem p hp _ hlist
  have hmem : ∀ x ∈ xs, x ∈ cells p₀ := fun x hx =>
    Cycle.mem_coe_iff.mp (hcells ▸ Cycle.mem_coe_iff.mpr hx)
  have hxslive : ∀ x ∈ xs, x ∈ live := fun x hx =>
    (h.isList p₀ (mem_forget.mp hp₀).1).live x (hmem x hx)
  have hfree : ∀ y ∈ seg, Free (forget lists list) y := by
    intro y hy p hp hin
    obtain ⟨hp, hhead⟩ := mem_forget.mp hp
    exact hhead (congrArg Prod.fst (h.eq_of_mem hp hlist hin (List.mem_cons_of_mem list hy)))
  have hdisjoint : ∀ x ∈ xs, ∀ y ∈ seg, x ≠ y := fun x hx y hy heq =>
    hfree y hy p₀ hp₀ (heq ▸ hmem x hx)
  refine ⟨{ next := Function.update (Function.update l.next prev (l.next list)) (l.prev list) next
            prev := Function.update (Function.update l.prev (l.next list) prev) next
              (l.prev list) }, ?_, ?_, hlive list List.mem_cons_self, ?_⟩
  · have hfirst := hlive _ (List.mem_cons_of_mem list hseg.head_mem)
    have hlast := hlive _ (List.mem_cons_of_mem list hseg.last_mem)
    simp only [ListH.splice, getNext_of_live (hlive list List.mem_cons_self),
      getPrev_of_live (hlive list List.mem_cons_self), setPrev_of_live hfirst,
      setNext_of_live (hxslive prev hxs.last_mem), setNext_of_live hlast,
      setPrev_of_live (hxslive next hxs.head_mem), Option.bind_eq_bind, Option.bind_some]
  · apply (h.forget list).join hp₀ hcells hxs hseg hnodup
      (fun y hy => hlive y (List.mem_cons_of_mem list hy)) hfree hother hf <;> dsimp only
    · constructor
      · rw [Function.update_of_ne (hdisjoint _ hxs.last_mem _ hseg.last_mem),
          Function.update_self]
      · rw [Function.update_of_ne (hdisjoint _ hxs.head_mem _ hseg.head_mem).symm,
          Function.update_self]
    · exact ⟨Function.update_self _ _ _, Function.update_self _ _ _⟩
    · intro x hxprev hxlast
      rw [Function.update_of_ne hxlast, Function.update_of_ne hxprev]
    · intro x hxnext hxfirst
      rw [Function.update_of_ne hxnext, Function.update_of_ne hxfirst]
  · intro p' hp' hin
    obtain ⟨p, hp, rfl⟩ := List.mem_map.mp hp'
    by_cases heq : p = p₀
    · subst heq
      rw [← Cycle.mem_coe_iff, hf, Cycle.mem_coe_iff, List.mem_append] at hin
      rcases hin with hin | hin
      · exact forget_free hentries p hp (hmem list hin)
      · exact hout hin
    · rw [hother p hp heq] at hin
      exact forget_free hentries p hp hin

omit [DecidablePred (· ∈ live)] in
theorem joined_nil (h : Represents l live lists) {list : Addr} (hlist : (list, []) ∈ lists)
    (join : List Addr → Addr × List Addr → Addr × List Addr) (init : Bool) :
    joined lists list join init = lists := by
  rw [joined, lookup_of_mem h hlist]

theorem join_represents (h : Represents l live lists) {list : Addr} {seg : List Addr}
    (hlist : (list, seg) ∈ lists) (hne : seg ≠ []) {p₀ : Addr × List Addr}
    (hp₀ : p₀ ∈ forget lists list) {xs : List Addr} {prev next : Addr}
    (hcells : (cells p₀ : Cycle Addr) = (xs : List Addr))
    (hxs : Segment l.next l.prev xs next prev)
    {join : List Addr → Addr × List Addr → Addr × List Addr}
    (hother : ∀ p ∈ forget lists list, p ≠ p₀ → join seg p = p)
    (hf : (cells (join seg p₀) : Cycle Addr) = (xs ++ seg : List Addr)) :
    ∃ l₁ l₂, splice l live list prev next = some l₁
      ∧ Represents l₁ live (joined lists list join false)
      ∧ l₁.initListHead live list = some l₂
      ∧ Represents l₂ live (joined lists list join true) := by
  obtain ⟨l₁, hrun, h₁, hlive, hfree⟩ := splice_represents h hlist hne hp₀ hcells hxs hother hf
  obtain ⟨l₂, hinit, h₂⟩ := h₁.initListHead hlive
    fun p hp hin => hfree p hp (List.mem_cons_of_mem p.1 hin)
  rw [forget_of_free hfree] at h₂
  have hjoined : ∀ init, joined lists list join init
      = (if init then [(list, [])] else []) ++ (forget lists list).map (join seg) := by
    intro init
    rw [joined, lookup_of_mem h hlist]
    cases seg with
    | nil => exact absurd rfl hne
    | cons a rest => rfl
  rw [hjoined, hjoined]
  exact ⟨l₁, l₂, hrun, h₁, hinit, h₂⟩

theorem listSplice_represents (h : Represents l live lists) {list place : Addr}
    (hlist : ∃ p ∈ lists, p.1 = list) (hplace : Placed (forget lists list) place) :
    (∃ l', listSplice l live list place = some l'
        ∧ Represents l' live (joined lists list (insertAfter place) false))
      ∧ ∃ l', listSpliceInit l live list place = some l'
        ∧ Represents l' live (joined lists list (insertAfter place) true) := by
  obtain ⟨⟨head, seg⟩, hp, rfl⟩ := hlist
  obtain ⟨p₀, hp₀, hmem⟩ := hplace
  have hlist := h.isList p₀ (mem_forget.mp hp₀).1
  have hring : IsRing l.next l.prev (cells p₀ : Cycle Addr) := hlist.ring
  obtain ⟨rest, hcells, hinsert⟩ := exists_insertAfter hmem hlist.nodup
  rw [hcells] at hring
  have hempty := listEmpty_eq h hp
  cases seg with
  | nil =>
      rw [listSplice, listSpliceInit, hempty, joined_nil h hp, joined_nil h hp]
      exact ⟨⟨l, rfl, h⟩, l, rfl, h⟩
  | cons a seg =>
      obtain ⟨l₁, l₂, hrun, h₁, hinit, h₂⟩ := join_represents h hp (List.cons_ne_nil a seg) hp₀
        hcells hring.segment_concat.1
        (fun p hp hne => insertAfter_of_notMem
          (other_of_place (h.forget head) hp₀ hmem p hp hne) (a :: seg)) (hinsert (a :: seg))
      have hnext := getNext_of_live (l := l) (hlist.live place hmem)
      refine ⟨⟨l₁, ?_, h₁⟩, l₂, ?_, h₂⟩
      · simp only [listSplice, hempty, hnext, hrun, List.isEmpty_cons, Bool.false_eq_true, if_false,
          Option.bind_eq_bind, Option.bind_some]
      · simp only [listSpliceInit, hempty, hnext, hrun, hinit, List.isEmpty_cons,
          Bool.false_eq_true, if_false, Option.bind_eq_bind, Option.bind_some]

theorem listSpliceTail_represents (h : Represents l live lists) {list place : Addr}
    (hlist : ∃ p ∈ lists, p.1 = list) (hplace : Placed (forget lists list) place) :
    (∃ l', listSpliceTail l live list place = some l'
        ∧ Represents l' live (joined lists list (insertBefore place) false))
      ∧ ∃ l', listSpliceTailInit l live list place = some l'
        ∧ Represents l' live (joined lists list (insertBefore place) true) := by
  obtain ⟨⟨head, seg⟩, hp, rfl⟩ := hlist
  obtain ⟨p₀, hp₀, hmem⟩ := hplace
  have hlist := h.isList p₀ (mem_forget.mp hp₀).1
  have hring : IsRing l.next l.prev (cells p₀ : Cycle Addr) := hlist.ring
  obtain ⟨rest, hcells, hinsert⟩ := exists_insertBefore hmem hlist.nodup
  rw [hcells] at hring
  have hempty := listEmpty_eq h hp
  cases seg with
  | nil =>
      rw [listSpliceTail, listSpliceTailInit, hempty, joined_nil h hp, joined_nil h hp]
      exact ⟨⟨l, rfl, h⟩, l, rfl, h⟩
  | cons a seg =>
      obtain ⟨l₁, l₂, hrun, h₁, hinit, h₂⟩ := join_represents h hp (List.cons_ne_nil a seg) hp₀
        hcells hring.segment_cons.1
        (fun p hp hne => insertBefore_of_notMem
          (other_of_place (h.forget head) hp₀ hmem p hp hne) (a :: seg)) (hinsert (a :: seg))
      have hprev := getPrev_of_live (l := l) (hlist.live place hmem)
      refine ⟨⟨l₁, ?_, h₁⟩, l₂, ?_, h₂⟩
      · simp only [listSpliceTail, hempty, hprev, hrun, List.isEmpty_cons, Bool.false_eq_true,
          if_false, Option.bind_eq_bind, Option.bind_some]
      · simp only [listSpliceTailInit, hempty, hprev, hrun, hinit, List.isEmpty_cons,
          Bool.false_eq_true, if_false, Option.bind_eq_bind, Option.bind_some]

/-! ### Cutting -/

/-- The two sides of the cut. -/
structure CutAt (l : Links Addr) (list head entry : Addr) (before after : List Addr) : Prop where
  cut : Segment l.next l.prev (before ++ [entry]) (l.next head) entry
  kept : Segment l.next l.prev (after ++ [head]) (l.next entry) head
  nodup : (before ++ [entry] ++ (after ++ [head])).Nodup
  fresh : list ∉ before ++ [entry] ++ (after ++ [head])

def cutLinks (l : Links Addr) (list head entry : Addr) : Links Addr where
  next := Function.update (Function.update (Function.update l.next list (l.next head)) entry list)
    head (l.next entry)
  prev := Function.update (Function.update (Function.update l.prev (l.next head) list) list entry)
    (l.next entry) head

section CutAt

variable {list head entry : Addr} {before after : List Addr}

omit [DecidablePred (· ∈ live)] in
theorem cutAt_of_isList (h : l.IsList live head (before ++ entry :: after))
    (hfresh : list ∉ cells (head, before ++ entry :: after)) :
    CutAt l list head entry before after := by
  have hcycle : ((head :: (before ++ entry :: after) : List Addr) : Cycle Addr)
      = (before ++ [entry] ++ (after ++ [head]) : List Addr) :=
    coe_eq_of_append [head] (before ++ entry :: after) rfl (by simp)
  obtain ⟨first, last, hseg, hclose, hnodup⟩ := (hcycle ▸ h.ring).segment
  obtain ⟨b, c, hbefore, hafter, hlink⟩ := hseg.split (by simp) (by simp)
  have hb := hbefore.last
  have hlast := hafter.last
  rw [List.getLast?_concat, Option.some.injEq] at hb hlast
  subst hb hlast
  refine ⟨hclose.1 ▸ hbefore, hlink.1 ▸ hafter, hnodup, ?_⟩
  rwa [← Cycle.mem_coe_iff, cells, hcycle, Cycle.mem_coe_iff] at hfresh

theorem CutAt.ne (h : CutAt l list head entry before after) :
    (∀ x ∈ before ++ [entry], x ≠ list) ∧ (∀ x ∈ after ++ [head], x ≠ list)
      ∧ ∀ x ∈ before ++ [entry], ∀ y ∈ after ++ [head], x ≠ y :=
  ⟨fun _ hx heq => h.fresh (heq ▸ List.mem_append_left _ hx),
    fun _ hx heq => h.fresh (heq ▸ List.mem_append_right _ hx),
    (List.nodup_append.mp h.nodup).2.2⟩

/-- What `head` keeps. -/
theorem CutAt.isRing_kept (h : CutAt l list head entry before after) :
    IsRing (cutLinks l list head entry).next (cutLinks l list head entry).prev
      (after ++ [head] : List Addr) := by
  obtain ⟨-, hkept, hdisjoint⟩ := h.ne
  apply isRing_close h.kept (List.nodup_append.mp h.nodup).2.1 <;> dsimp only [cutLinks]
  · exact ⟨Function.update_self _ _ _, Function.update_self _ _ _⟩
  · intro x hx hxhead
    rw [Function.update_of_ne hxhead, Function.update_of_ne (hdisjoint _ h.cut.last_mem x hx).symm,
      Function.update_of_ne (hkept x hx)]
  · intro x hx hxfirst
    rw [Function.update_of_ne hxfirst, Function.update_of_ne (hkept x hx),
      Function.update_of_ne (hdisjoint _ h.cut.head_mem x hx).symm]

/-- What `list` gets. -/
theorem CutAt.isRing_cut (h : CutAt l list head entry before after) (hne : list ≠ head) :
    IsRing (cutLinks l list head entry).next (cutLinks l list head entry).prev
      (before ++ [entry] ++ [list] : List Addr) := by
  obtain ⟨hcut, hkept, hdisjoint⟩ := h.ne
  have hentry := h.cut.last_mem
  have hfirst := h.cut.head_mem
  apply isRing_join h.cut (segment_singleton l.next l.prev list)
  · rw [List.nodup_append_comm]
    exact List.nodup_cons.mpr
      ⟨fun hin => hcut list hin rfl, (List.nodup_append.mp h.nodup).1⟩
  · constructor <;> dsimp only [cutLinks]
    · rw [Function.update_of_ne (hdisjoint entry hentry head h.kept.last_mem),
        Function.update_self]
    · rw [Function.update_of_ne (hkept _ h.kept.head_mem).symm, Function.update_self]
  · constructor <;> dsimp only [cutLinks]
    · rw [Function.update_of_ne hne, Function.update_of_ne (hcut entry hentry).symm,
        Function.update_self]
    · rw [Function.update_of_ne (hdisjoint _ hfirst _ h.kept.head_mem),
        Function.update_of_ne (hcut _ hfirst), Function.update_self]
  · intro x hx hxentry hxlist
    have hx := (List.mem_append.mp hx).resolve_right fun hin => hxlist (List.mem_singleton.mp hin)
    dsimp only [cutLinks]
    rw [Function.update_of_ne (hdisjoint x hx head h.kept.last_mem),
      Function.update_of_ne hxentry, Function.update_of_ne hxlist]
  · intro x hx hxfirst hxlist
    have hx := (List.mem_append.mp hx).resolve_right fun hin => hxlist (List.mem_singleton.mp hin)
    dsimp only [cutLinks]
    rw [Function.update_of_ne (hdisjoint x hx _ h.kept.head_mem), Function.update_of_ne hxlist,
      Function.update_of_ne hxfirst]

theorem CutAt.same (h : CutAt l list head entry before after) {x : Addr} (hlist : x ≠ list)
    (hx : x ∉ before ++ [entry] ++ (after ++ [head])) :
    (cutLinks l list head entry).next x = l.next x
      ∧ (cutLinks l list head entry).prev x = l.prev x := by
  have hne : ∀ y, y ∈ before ++ [entry] ∨ y ∈ after ++ [head] → x ≠ y :=
    fun y hy heq => hx (heq ▸ List.mem_append.mpr hy)
  dsimp only [cutLinks]
  rw [Function.update_of_ne (hne head (Or.inr h.kept.last_mem)),
    Function.update_of_ne (hne entry (Or.inl h.cut.last_mem)), Function.update_of_ne hlist,
    Function.update_of_ne (hne _ (Or.inr h.kept.head_mem)), Function.update_of_ne hlist,
    Function.update_of_ne (hne _ (Or.inl h.cut.head_mem))]
  exact ⟨rfl, rfl⟩

theorem CutAt.run (h : CutAt l list head entry before after) (hlist : list ∈ live)
    (hlive : ∀ x ∈ before ++ [entry] ++ (after ++ [head]), x ∈ live) :
    cutPosition l live list head entry = some (cutLinks l list head entry) := by
  have hcut : ∀ x ∈ before ++ [entry], x ∈ live := fun x hx => hlive x (List.mem_append_left _ hx)
  have hkept : ∀ x ∈ after ++ [head], x ∈ live := fun x hx => hlive x (List.mem_append_right _ hx)
  simp only [cutPosition, getNext_of_live (hcut entry h.cut.last_mem),
    getNext_of_live (hkept head h.kept.last_mem), setNext_of_live hlist, getNext_of_live hlist,
    Function.update_self, setPrev_of_live (hcut _ h.cut.head_mem), setPrev_of_live hlist,
    setNext_of_live (hcut entry h.cut.last_mem), setNext_of_live (hkept head h.kept.last_mem),
    setPrev_of_live (hkept _ h.kept.head_mem), Option.bind_eq_bind, Option.bind_some]
  rfl

/-- **`__list_cut_position` makes two lists out of one.** -/
theorem cutPosition_represents (h : Represents l live lists)
    (hp : (head, before ++ entry :: after) ∈ lists) (hlive : list ∈ live)
    (hentries : ∀ p ∈ lists, list ∉ p.2) (hne : list ≠ head) :
    ∃ l', cutPosition l live list head entry = some l'
      ∧ Represents l' live ((list, before ++ [entry])
        :: (forget lists list).map fun p => if p.1 = head then (head, after) else p) := by
  have hlist := h.isList _ hp
  have hfree := forget_free hentries
  have h₀ := h.forget list
  have hp₀ : (head, before ++ entry :: after) ∈ forget lists list :=
    mem_forget.mpr ⟨hp, hne.symm⟩
  have hat := cutAt_of_isList hlist (hfree _ hp₀)
  have hmem : ∀ x, x ∈ cells (head, before ++ entry :: after)
      ↔ x ∈ before ++ [entry] ++ (after ++ [head]) := by
    intro x
    simp only [cells, List.mem_cons, List.mem_append, List.not_mem_nil, or_false]
    tauto
  have hkept : ∀ x, x ∈ cells (head, after) ↔ x ∈ after ++ [head] := by
    intro x
    rw [cells, List.mem_cons, List.mem_append, List.mem_singleton, or_comm]
  have hunique : ∀ p ∈ forget lists list, p.1 = head → p = (head, before ++ entry :: after) :=
    fun p hp heq => h₀.eq_of_mem hp hp₀ List.mem_cons_self (heq ▸ List.mem_cons_self)
  have hlive' : ∀ x ∈ before ++ [entry] ++ (after ++ [head]), x ∈ live :=
    fun x hx => hlist.live x ((hmem x).mpr hx)
  refine ⟨_, hat.run hlive hlive', Represents.cons ?_ ?_ ?_⟩
  · apply h₀.edit hp₀ fun p hp hpne => if_neg fun heq => hpne (hunique p hp heq)
    · rw [if_pos rfl]
      refine ⟨?_, fun x hx => hlive' x (List.mem_append_right _ ((hkept x).mp hx))⟩
      rw [Cycle.coe_cons_eq_coe_append]
      exact hat.isRing_kept
    · rw [if_pos rfl]
      exact fun x hx => Or.inl ((hmem x).mpr (List.mem_append_right _ ((hkept x).mp hx)))
    · intro p hp hpne x hx
      apply hat.same fun heq => hfree p hp (heq ▸ hx)
      exact fun hin => hpne (h₀.eq_of_mem hp hp₀ hx ((hmem x).mpr hin))
  · refine ⟨?_, fun x hx => ?_⟩
    · rw [Cycle.coe_cons_eq_coe_append]
      exact hat.isRing_cut hne
    · rcases List.mem_cons.mp hx with rfl | hx
      · exact hlive
      · exact hlive' x (List.mem_append_left _ hx)
  · intro x hx p' hp' hin
    obtain ⟨p, hp, rfl⟩ := List.mem_map.mp hp'
    have hin' : x ∈ cells p ∧ (p.1 = head → x ∈ after ++ [head]) := by
      split at hin
      · next heq =>
          have hx := (hkept x).mp hin
          exact ⟨hunique p hp heq ▸ (hmem x).mpr (List.mem_append_right _ hx), fun _ => hx⟩
      · next heq => exact ⟨hin, fun h => absurd h heq⟩
    rcases List.mem_cons.mp hx with rfl | hx
    · exact hfree p hp hin'.1
    · have heq := h₀.eq_of_mem hp hp₀ hin'.1 ((hmem x).mpr (List.mem_append_left _ hx))
      exact hat.ne.2.2 x hx x (hin'.2 (congrArg Prod.fst heq)) rfl

end CutAt

theorem takeWhile_ne {entry : Addr} {before : List Addr} (h : entry ∉ before)
    (after : List Addr) :
    (before ++ entry :: after).takeWhile (· ≠ entry) = before
      ∧ (before ++ entry :: after).dropWhile (· ≠ entry) = entry :: after := by
  have hne : ∀ a ∈ before, decide (a ≠ entry) = true := by
    intro a ha
    rw [decide_eq_true_iff]
    exact fun heq => h (heq ▸ ha)
  rw [List.takeWhile_append_of_pos hne, List.dropWhile_append_of_pos hne,
    List.takeWhile_cons_of_neg (by simp), List.dropWhile_cons_of_neg (by simp), List.append_nil]
  exact ⟨rfl, rfl⟩

theorem listCutPosition_represents (h : Represents l live lists) {list head entry : Addr}
    (hpre : (Call.listCutPosition list head entry).Pre live lists) :
    ∃ l', listCutPosition l live list head entry = some l'
      ∧ Represents l' live ((Call.listCutPosition list head entry).after lists) := by
  obtain ⟨⟨hlive, hentries⟩, hne, ⟨first, entries⟩, hp, hfirst, hentry⟩ := hpre
  obtain rfl : first = head := hfirst
  have hempty := listEmpty_eq h hp
  have hsingular := listIsSingular_eq h hp
  have hlookup := lookup_of_mem h hp
  dsimp only at hempty hsingular hlookup hentry
  simp only [Call.after, hlookup]
  cases entries with
  | nil =>
      refine ⟨l, ?_, h⟩
      rw [listCutPosition, hempty]
      rfl
  | cons a rest =>
      have hrun := (listEmpty_eq_cons h hp).2
      simp only [listCutPosition, hempty, hsingular, hrun, List.isEmpty_cons, Bool.false_eq_true,
        if_false, Option.bind_eq_bind, Option.bind_some, Bool.and_eq_true, decide_eq_true_iff]
      by_cases heq : entry = first
      · obtain ⟨l', hinit, h'⟩ := h.initListHead hlive hentries
        refine ⟨l', ?_, ?_⟩
        · rw [if_neg fun hcond => hcond.2 heq.symm, if_pos heq, hinit]
        · rw [if_pos heq]
          exact h'
      · by_cases hmem : entry ∈ a :: rest
        · obtain ⟨before, after, hsplit, hbefore, -, -⟩ := exists_split hmem (h.isList _ hp).nodup
          obtain ⟨htake, hdrop⟩ := takeWhile_ne hbefore after
          dsimp only at hsplit
          rw [hsplit] at hp
          obtain ⟨l', hcut, h'⟩ := cutPosition_represents h hp hlive hentries hne
          refine ⟨l', ?_, ?_⟩
          · rw [if_neg ?_, if_neg heq, hcut]
            rintro ⟨⟨hone, hane⟩, -⟩
            rw [List.length_eq_one_iff] at hone
            obtain ⟨b, hb⟩ := hone
            rw [hb, List.mem_singleton] at hmem
            obtain ⟨rfl, -⟩ := List.cons.inj hb
            exact hane hmem.symm
          · rw [if_neg heq, if_pos hmem, cut, hsplit, htake, hdrop, List.tail_cons]
            exact h'
        · refine ⟨l, ?_, ?_⟩
          · rcases hentry with hcell | hlength
            · exact absurd (List.mem_cons.mp hcell) (not_or.mpr ⟨heq, hmem⟩)
            · have hone : (a :: rest).length = 1 := by
                rw [List.length_cons] at hlength ⊢
                omega
              have hane : a ≠ entry := fun hae => hmem (hae ▸ List.mem_cons_self)
              exact if_pos ⟨⟨hone, hane⟩, fun hfe => heq hfe.symm⟩
          · rw [if_neg heq, if_neg hmem]
            exact h

/-! ### Every call -/

/-- **One call does to the lists in memory what it is for.** -/
theorem Call.run_represents (h : Represents l live lists) {call : Call}
    (hpre : call.Pre live lists) :
    ∃ l', call.run live l = some l' ∧ Represents l' live (call.after lists) := by
  cases call with
  | initListHead list => exact h.initListHead hpre.1 hpre.2
  | listAdd new head =>
      exact listAdd_represents (h.forget new) hpre.1.1 (forget_free hpre.1.2) hpre.2
  | listAddTail new head =>
      exact listAddTail_represents (h.forget new) hpre.1.1 (forget_free hpre.1.2) hpre.2
  | listDel entry => exact listDel_represents h hpre
  | listDelInit entry => exact listDelInit_represents h hpre
  | listReplace old new =>
      obtain ⟨l', hrun, h', -⟩ :=
        listReplace_represents (h.forget new) hpre.1.1 (forget_free hpre.1.2) hpre.2
      exact ⟨l', hrun, h'⟩
  | listReplaceInit old new =>
      exact listReplaceInit_represents (h.forget new) hpre.1.1 (forget_free hpre.1.2) hpre.2
  | listMove list head => exact listMove_represents h hpre.1 hpre.2
  | listMoveTail list head => exact listMoveTail_represents h hpre.1 hpre.2
  | listRotateLeft head =>
      obtain ⟨p, hp, rfl⟩ := hpre
      exact listRotateLeft_represents h hp
  | listCutPosition list head entry => exact listCutPosition_represents h hpre
  | listSplice list head => exact (listSplice_represents h hpre.1 hpre.2).1
  | listSpliceTail list head => exact (listSpliceTail_represents h hpre.1 hpre.2).1
  | listSpliceInit list head => exact (listSplice_represents h hpre.1 hpre.2).2
  | listSpliceTailInit list head => exact (listSpliceTail_represents h hpre.1 hpre.2).2

end Pnl.ListH
