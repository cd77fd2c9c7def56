import Pnl.Proof.ListHSteps

/-!
# Runs of the list header

Whatever sequence of calls `list.h` allows, the memory after it holds the lists that the operations
are named after, and what the header offers for reading agrees with them. The safe iterator goes
through a list whose entries the body takes off.
-/

namespace Pnl.ListH

open ListHeads Loops Rings Runs

variable {l : Links Addr} {live : Set Addr} [DecidablePred (· ∈ live)] {lists : ListFamily Addr}

theorem runCalls_represents (h : Represents l live lists) {calls : List Call}
    (hadmissible : Admissible live lists calls) :
    ∃ l', runCalls live l calls = some l'
      ∧ Represents l' live (final Call.after lists calls) := by
  induction calls generalizing l lists with
  | nil => exact ⟨l, rfl, h⟩
  | cons call calls ih =>
      obtain ⟨hpre, hrest⟩ := hadmissible
      obtain ⟨l₁, hrun, h₁⟩ := call.run_represents h hpre
      obtain ⟨l', hruns, h'⟩ := ih h₁ hrest
      refine ⟨l', ?_, h'⟩
      rw [runCalls, hrun, Option.bind_eq_bind, Option.bind_some, hruns]

/-- **The header implements its lists.** From any lists in memory, every run of calls that the
header allows has a result, and the rings in memory are the lists that the run makes. -/
theorem runCalls_refines (hlists : Represents l live lists) {calls : List Call}
    (hadmissible : Admissible live lists calls) :
    ∃ l', runCalls live l calls = some l'
      ∧ ∀ p ∈ final Call.after lists calls, l'.IsList live p.1 p.2
        ∧ ∀ q ∈ final Call.after lists calls, ∀ a ∈ cells p, a ∈ cells q → p = q := by
  obtain ⟨l', hrun, h'⟩ := runCalls_represents hlists hadmissible
  exact ⟨l', hrun, fun p hp => ⟨h'.isList p hp, fun q hq a ha ha' => h'.eq_of_mem hp hq ha ha'⟩⟩

/-- A list is filled and cut in two, and the parts are joined the other way round. -/
theorem runCalls_refines_joined :
    ∃ l', runCalls {a | a < 20} ⟨fun _ => 0, fun _ => 0⟩
        [.initListHead 1, .initListHead 2, .listAdd 10 1, .listAddTail 11 1, .listAddTail 12 1,
          .listCutPosition 2 1 10, .listRotateLeft 1, .listSpliceTailInit 2 1,
          .listReplace 11 13, .listDel 12] = some l'
      ∧ ∀ p ∈ [(2, []), (1, [13, 10])], l'.IsList {a | a < 20} p.1 p.2
        ∧ ∀ q ∈ [(2, []), (1, [13, 10])], ∀ a ∈ cells p, a ∈ cells q → p = q :=
  runCalls_refines (represents_nil _ _) (by decide)

/-! ### Reading -/

section Reading

variable {p : Addr × List Addr}

theorem listEmptyCareful_eq (h : Represents l live lists) (hp : p ∈ lists) :
    listEmptyCareful l live p.1 = some p.2.isEmpty := by
  have hlist := h.isList p hp
  have hhead := hlist.live p.1 List.mem_cons_self
  have hempty := listEmpty_eq h hp
  rw [listEmpty, getNext_of_live hhead, Option.bind_eq_bind, Option.bind_some, Option.pure_def,
    Option.some.injEq] at hempty
  rw [listEmptyCareful, getNext_of_live hhead, getPrev_of_live hhead, Option.bind_eq_bind,
    Option.bind_some, ← hempty]
  by_cases hself : l.next p.1 = p.1
  · have hprev := hlist.ring.prev_next (Cycle.mem_coe_iff.mpr List.mem_cons_self)
    rw [if_pos hself]
    rw [hself] at hprev
    simp [hself, hprev]
  · rw [if_neg hself]
    simp [hself]

theorem listIsLast_eq (h : Represents l live lists) (hp : p ∈ lists) {a : Addr} (ha : a ∈ p.2) :
    listIsLast l live a p.1 = some (decide (p.2.getLast? = some a)) := by
  have hlist := h.isList p hp
  have hcell : a ∈ p.1 :: p.2 := List.mem_cons_of_mem p.1 ha
  obtain ⟨hseg, -, -⟩ := hlist.ring.rest (List.ne_nil_of_mem ha)
  have hback := hlist.ring.prev_next (Cycle.mem_coe_iff.mpr hcell)
  have hforth := hlist.ring.segment_cons.2.1
  simp only [listIsLast, getNext_of_live (hlist.live a hcell), Option.bind_eq_bind,
    Option.bind_some, Option.pure_def, Option.some.injEq, decide_eq_decide, hseg.last]
  constructor
  · intro hnext
    rw [← hback, hnext]
  · rintro rfl
    exact hforth

/-- What a loop has noted when the entries `rest` are still ahead of it. -/
def Noted (step : Addr → Addr) (p : Addr × List Addr) (entries rest : List Addr)
    (w : Addr × List Addr) : Prop :=
  Ahead step p.1 rest w.1 ∧ w.2 ++ rest = entries

theorem walk_ends {step : Addr → Addr} {read : Addr → Option Addr} {entries : List Addr}
    (hread : ∀ a ∈ entries, read a = some (step a)) (hahead : Ahead step p.1 entries (step p.1)) :
    Ends (fun w => w.1 ≠ p.1) (fun w => do let pos ← read w.1; return (pos, w.2 ++ [w.1]))
      (step p.1, ([] : List Addr)) (p.1, entries) := by
  have hturn : ∀ a rest w, Noted step p entries (a :: rest) w → decide (w.1 ≠ p.1) = true
      ∧ ∃ w', (do let pos ← read w.1; return (pos, w.2 ++ [w.1])) = some w'
        ∧ Noted step p entries rest w' := by
    rintro a rest w ⟨hahead, hnoted⟩
    have hmem : w.1 ∈ entries := by
      rw [← hnoted, hahead.eq]
      simp
    refine ⟨decide_eq_true hahead.ne_last, (step w.1, w.2 ++ [w.1]), ?_, hahead.next, ?_⟩
    · rw [hread w.1 hmem]
      rfl
    · rw [hahead.eq, ← hnoted, List.append_assoc, List.singleton_append]
  have hstart : Noted step p entries entries (step p.1, []) := ⟨hahead, rfl⟩
  obtain ⟨⟨pos, noted⟩, hreaches, hend, hnoted⟩ := exists_reaches hturn hstart
  rw [List.append_nil] at hnoted
  obtain rfl : pos = p.1 := hend.eq_last
  obtain rfl : noted = entries := hnoted
  exact hreaches.ends (by simp)

theorem listForEach_ends (h : Represents l live lists) (hp : p ∈ lists) :
    ∃ turns, listForEach l live turns p.1 = some p.2 := by
  have hlist := h.isList p hp
  obtain ⟨turns, hrun⟩ := walk_ends
    (fun a ha => getNext_of_live (hlist.live a (List.mem_cons_of_mem p.1 ha))) hlist.forward
  refine ⟨turns, ?_⟩
  rw [listForEach, getNext_of_live (hlist.live p.1 List.mem_cons_self), Option.bind_eq_bind,
    Option.bind_some]
  rw [hrun]
  rfl

theorem listForEachPrev_ends (h : Represents l live lists) (hp : p ∈ lists) :
    ∃ turns, listForEachPrev l live turns p.1 = some p.2.reverse := by
  have hlist := h.isList p hp
  obtain ⟨turns, hrun⟩ := walk_ends
    (fun a ha => getPrev_of_live
      (hlist.live a (List.mem_cons_of_mem p.1 (List.mem_reverse.mp ha)))) hlist.backward
  refine ⟨turns, ?_⟩
  rw [listForEachPrev, getPrev_of_live (hlist.live p.1 List.mem_cons_self), Option.bind_eq_bind,
    Option.bind_some]
  rw [hrun]
  rfl

/-- What the header tells about a list. -/
structure Reads (l : Links Addr) (live : Set Addr) [DecidablePred (· ∈ live)]
    (p : Addr × List Addr) : Prop where
  empty : listEmpty l live p.1 = some p.2.isEmpty
  emptyCareful : listEmptyCareful l live p.1 = some p.2.isEmpty
  singular : listIsSingular l live p.1 = some (decide (p.2.length = 1))
  last : ∀ a ∈ p.2, listIsLast l live a p.1 = some (decide (p.2.getLast? = some a))
  ends : p.2 ≠ [] →
    l.getNext live p.1 = p.2.head? ∧ l.getPrev live p.1 = p.2.getLast?
  forEach : ∃ turns, listForEach l live turns p.1 = some p.2
  forEachPrev : ∃ turns, listForEachPrev l live turns p.1 = some p.2.reverse

theorem reads_of_represents (h : Represents l live lists) (hp : p ∈ lists) : Reads l live p where
  empty := listEmpty_eq h hp
  emptyCareful := listEmptyCareful_eq h hp
  singular := listIsSingular_eq h hp
  last := fun _ ha => listIsLast_eq h hp ha
  ends := by
    intro hne
    have hlist := h.isList p hp
    have hhead := hlist.live p.1 List.mem_cons_self
    obtain ⟨hseg, -, -⟩ := hlist.ring.rest hne
    rw [getNext_of_live hhead, getPrev_of_live hhead, hseg.head, hseg.last]
    exact ⟨rfl, rfl⟩
  forEach := listForEach_ends h hp
  forEachPrev := listForEachPrev_ends h hp

/-- **What the header tells is what the run made.** -/
theorem runCalls_reads (hlists : Represents l live lists) {calls : List Call}
    (hadmissible : Admissible live lists calls) :
    ∃ l', runCalls live l calls = some l'
      ∧ ∀ p ∈ final Call.after lists calls, Reads l' live p := by
  obtain ⟨l', hrun, h'⟩ := runCalls_represents hlists hadmissible
  exact ⟨l', hrun, fun p hp => reads_of_represents h' hp⟩

/-- A list of three entries is filled and turned once. -/
theorem runCalls_reads_rotated :
    ∃ l', runCalls {a | a < 20} ⟨fun _ => 0, fun _ => 0⟩
        [.initListHead 1, .listAdd 10 1, .listAdd 11 1, .listAdd 12 1, .listRotateLeft 1] = some l'
      ∧ ∀ p ∈ [(1, [11, 10, 12])], Reads l' {a | a < 20} p :=
  runCalls_reads (represents_nil _ _) (by decide)

end Reading

/-! ### Going through a list and taking entries off it -/

section Safe

variable {head : Addr} {entries kept rest : List Addr} {a : Addr}

omit [DecidablePred (· ∈ live)] in
/-- The list that is gone through loses `a`, and nothing else. -/
theorem mem_after_of_removes (h : Represents l live lists)
    (hp : (head, kept ++ a :: rest) ∈ lists) {avoid : List Addr}
    (havoid : ∀ b ∈ cells (head, kept ++ a :: rest), b ∈ avoid) {call : Call}
    (hremoves : Removes avoid a call) : (head, kept ++ rest) ∈ call.after lists := by
  have hlist := h.isList _ hp
  have hmem : a ∈ (head, kept ++ a :: rest).2 := List.mem_append_right kept List.mem_cons_self
  obtain ⟨-, -, -, -, -, hne⟩ := exists_split hmem hlist.nodup
  have hkept : a ∉ kept := by
    have hnodup := (List.nodup_cons.mp hlist.nodup).2
    exact fun hmem => (List.nodup_append.mp hnodup).2.2 a hmem a List.mem_cons_self rfl
  have hdetach : (head, kept ++ rest) ∈ detach lists a := by
    refine List.mem_map.mpr ⟨_, mem_forget.mpr ⟨hp, hne⟩, ?_⟩
    rw [List.erase_append_right _ hkept, List.erase_cons_head]
  have hmap : ∀ place ∉ avoid, place ∉ cells (head, kept ++ rest) := by
    intro place hplace hmem
    apply hplace
    apply havoid
    simp only [cells, List.mem_cons, List.mem_append] at hmem ⊢
    tauto
  cases call with
  | listDel entry =>
      obtain rfl : entry = a := hremoves
      exact hdetach
  | listDelInit entry =>
      obtain rfl : entry = a := hremoves
      exact List.mem_cons_of_mem _ hdetach
  | listMove list place =>
      obtain ⟨rfl, hplace⟩ := hremoves
      exact List.mem_map.mpr ⟨_, hdetach, insertAfter_of_notMem (hmap place hplace) _⟩
  | listMoveTail list place =>
      obtain ⟨rfl, hplace⟩ := hremoves
      exact List.mem_map.mpr ⟨_, hdetach, insertBefore_of_notMem (hmap place hplace) _⟩
  | _ => exact absurd hremoves id

omit [DecidablePred (· ∈ live)] in
theorem head?_after (h : l.IsList live head (kept ++ a :: rest)) :
    (rest ++ [head]).head? = some (l.next a) := by
  have hchain : (head :: kept ++ a :: (rest ++ [head])).IsChain (Linked l.next l.prev) := by
    simpa using h.chain
  have htail := hchain.right_of_append
  rw [List.isChain_cons] at htail
  obtain ⟨b, hb⟩ : ∃ b, (rest ++ [head]).head? = some b :=
    Option.isSome_iff_exists.mp (by simp)
  rw [hb, (htail.1 b hb).1]

/-- Where the loop is when the entries `rest` are still ahead of it. -/
structure SafeInv (live : Set Addr) (lists : ListFamily Addr) (head : Addr) (entries : List Addr)
    (fate : Addr → Option Call) (rest : List Addr) (w : SafeLoop) : Prop where
  visited : w.visited ++ rest = entries
  represents : Represents w.links live (final Call.after lists (w.visited.filterMap fate))
  mem : (head, (w.visited.filter fun b => (fate b).isNone) ++ rest)
    ∈ final Call.after lists (w.visited.filterMap fate)
  admissible :
    Admissible live (final Call.after lists (w.visited.filterMap fate)) (rest.filterMap fate)
  pos : (rest ++ [head]).head? = some w.pos
  n : w.n = w.links.next w.pos

variable {fate : Addr → Option Call} {w : SafeLoop}

/-- The body at `a`: what it leaves in memory, and on the list. -/
theorem safe_body (hinv : SafeInv live lists head entries fate (a :: rest) w)
    (hfate : ∀ b ∈ entries, ∀ call ∈ fate b, Removes (head :: entries) b call) :
    ∃ links, safeBody live fate w.links a = some links
      ∧ Represents links live (final Call.after lists ((w.visited ++ [a]).filterMap fate))
      ∧ (head, ((w.visited ++ [a]).filter fun b => (fate b).isNone) ++ rest)
        ∈ final Call.after lists ((w.visited ++ [a]).filterMap fate)
      ∧ Admissible live (final Call.after lists ((w.visited ++ [a]).filterMap fate))
        (rest.filterMap fate) := by
  have hmem := hinv.mem
  have hadmissible := hinv.admissible
  have ha : a ∈ entries := by
    rw [← hinv.visited]
    simp
  rw [List.filter_append, List.filterMap_append, final_append, safeBody]
  cases hcase : fate a with
  | none =>
      refine ⟨w.links, rfl, ?_⟩
      rw [List.filterMap_cons_none hcase] at hadmissible
      simp only [List.filterMap_cons_none hcase, List.filterMap_nil, List.filter_cons, hcase,
        Option.isNone_none, if_true, List.filter_nil, List.append_assoc, List.singleton_append]
      exact ⟨hinv.represents, hmem, hadmissible⟩
  | some call =>
      rw [List.filterMap_cons_some hcase] at hadmissible
      obtain ⟨links, hrun, hrepresents⟩ := call.run_represents hinv.represents hadmissible.1
      refine ⟨links, hrun, ?_⟩
      simp only [List.filterMap_cons_some hcase, List.filterMap_nil, List.filter_cons, hcase,
        Option.isNone_some, Bool.false_eq_true, if_false, List.filter_nil, List.append_nil]
      refine ⟨hrepresents, ?_, hadmissible.2⟩
      apply mem_after_of_removes hinv.represents hmem _ (hfate a ha call hcase)
      intro b hb
      rw [← hinv.visited]
      simp only [cells, List.mem_cons, List.mem_append, List.mem_filter] at hb ⊢
      tauto

theorem safeTurn_inv (hinv : SafeInv live lists head entries fate (a :: rest) w)
    (hfate : ∀ b ∈ entries, ∀ call ∈ fate b, Removes (head :: entries) b call) :
    decide (w.pos ≠ head) = true
      ∧ ∃ w', safeTurn live fate w = some w' ∧ SafeInv live lists head entries fate rest w' := by
  have hlist := hinv.represents.isList _ hinv.mem
  have hpos : w.pos = a := by
    have hpos := hinv.pos
    rw [List.cons_append, List.head?_cons] at hpos
    exact (Option.some.inj hpos).symm
  have hne : a ≠ head := fun heq => hlist.head_notMem (by simp [heq])
  obtain ⟨links, hrun, hrepresents, hmem, hadmissible⟩ := safe_body hinv hfate
  have hnext : (rest ++ [head]).head? = some w.n := by
    rw [hinv.n, hpos]
    exact head?_after hlist
  have hlive : w.n ∈ live := by
    apply (hrepresents.isList _ hmem).live
    have hin := List.mem_of_mem_head? hnext
    simp only [List.mem_append, List.mem_cons, List.not_mem_nil, or_false] at hin ⊢
    tauto
  refine ⟨decide_eq_true (hpos ▸ hne),
    { links := links, pos := w.n, n := links.next w.n, visited := w.visited ++ [a] }, ?_,
    ?_, hrepresents, hmem, hadmissible, hnext, rfl⟩
  · rw [safeTurn, hpos, hrun, Option.bind_eq_bind, Option.bind_some, getNext_of_live hlive]
    rfl
  · rw [← hinv.visited, List.append_assoc, List.singleton_append]

/-- **The safe iterator visits every entry once, in order**, whatever the body takes off the list:
deleted, initialised again or moved to another one. What it did not take off is left, in order. -/
theorem listForEachSafe_visits (hlists : Represents l live lists) (hhead : (head, entries) ∈ lists)
    (hfate : ∀ b ∈ entries, ∀ call ∈ fate b, Removes (head :: entries) b call)
    (hadmissible : Admissible live lists (entries.filterMap fate)) :
    ∃ turns l', listForEachSafe l live fate turns head = some (l', entries)
      ∧ Represents l' live (final Call.after lists (entries.filterMap fate))
      ∧ (head, entries.filter fun b => (fate b).isNone)
        ∈ final Call.after lists (entries.filterMap fate) := by
  have hlist := hlists.isList _ hhead
  have hheadlive := hlist.live head List.mem_cons_self
  have hfirst := hlist.forward
  have hfirstlive : l.next head ∈ live := hlist.live _ hfirst.mem
  have hstart : SafeInv live lists head entries fate entries
      { links := l, pos := l.next head, n := l.next (l.next head) } :=
    ⟨rfl, hlists, hhead, hadmissible, hfirst.head, rfl⟩
  have hturn : ∀ a rest w, SafeInv live lists head entries fate (a :: rest) w →
      decide (w.pos ≠ head) = true ∧ ∃ w', safeTurn live fate w = some w'
        ∧ SafeInv live lists head entries fate rest w' :=
    fun _ _ _ hinv => safeTurn_inv hinv hfate
  obtain ⟨w, hreaches, hinv⟩ := exists_reaches hturn hstart
  obtain ⟨visited, hrepresents, hmem, -, hpos, -⟩ := hinv
  rw [List.append_nil] at visited hmem
  have hend : w.pos = head := by simpa using hpos.symm
  obtain ⟨turns, hrun⟩ := hreaches.ends (by simp [hend])
  refine ⟨turns, w.links, ?_, visited ▸ hrepresents, visited ▸ hmem⟩
  rw [listForEachSafe, getNext_of_live hheadlive, Option.bind_eq_bind, Option.bind_some,
    getNext_of_live hfirstlive, Option.bind_eq_bind, Option.bind_some, hrun]
  rw [← visited]
  rfl

/-- Of three entries, one is deleted and one moves to the other list. -/
theorem listForEachSafe_visits_three :
    ∃ l, runCalls {a | a < 20} ⟨fun _ => 0, fun _ => 0⟩
        [.initListHead 1, .initListHead 2, .listAddTail 10 1, .listAddTail 11 1,
          .listAddTail 12 1] = some l
      ∧ ∃ turns l', listForEachSafe l {a | a < 20}
          (fun a => if a = 10 then some (.listDel 10)
            else if a = 12 then some (.listMoveTail 12 2) else none) turns 1
            = some (l', [10, 11, 12])
        ∧ Represents l' {a | a < 20} [(2, [12]), (1, [11])]
        ∧ (1, [11]) ∈ [((2 : Addr), [12]), (1, [11])] := by
  have hadmissible : Admissible {a | a < 20} [] [.initListHead 1, .initListHead 2,
      .listAddTail 10 1, .listAddTail 11 1, .listAddTail 12 1] := by
    decide
  obtain ⟨l, hrun, h⟩ :=
    runCalls_represents (represents_nil ⟨fun _ => 0, fun _ => 0⟩ _) hadmissible
  exact ⟨l, hrun, listForEachSafe_visits h (by decide) (by simp [Removes]) (by decide)⟩

end Safe

end Pnl.ListH
