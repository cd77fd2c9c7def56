import Pnl.History
import Pnl.Lib.Rings

/-!
# Reading a history

`display_history` and `infos` go from the first commit of a ring along `next`, and stop at the last
one without looking at it. `infos` also moves on from the commit it finds, before it displays one.
-/

namespace Pnl.Commits

open Loops Rings

/-- The commits of a history, in `next` order from the one it points to. -/
structure History.Lists (history : History) (h : Heap) (commits : List Addr) : Prop where
  head : commits.head? = some history.commitList
  ring : IsRing h.next h.prev (commits : Cycle Addr)
  live : ∀ c ∈ commits, c ∈ h.live

section Lists

variable {h : Heap} {history : History}

theorem History.Lists.exists_concat {commits : List Addr} (hlists : history.Lists h commits) :
    ∃ init last, commits = init ++ [last] := by
  rcases List.eq_nil_or_concat commits with rfl | ⟨init, last, rfl⟩
  · simpa using hlists.head
  · exact ⟨init, last, List.concat_eq_append⟩

theorem displayCommit_of_live {c : Addr} (hc : c ∈ h.live) :
    ∃ content, h.block c = some content ∧ displayCommit h c = some (.commit c content)
      ∧ content.next = h.next c := by
  obtain ⟨content, hcontent⟩ := Option.isSome_iff_exists.mp hc
  exact ⟨content, hcontent, by rw [displayCommit, hcontent, Option.map_some],
    by rw [Heap.next, hcontent, Option.elim_some]⟩

variable {init : List Addr} {last : Addr} (hlists : history.Lists h (init ++ [last]))

include hlists

theorem History.Lists.lastCommit_eq : lastCommit h history = some last := by
  have hprev := (hlists.ring.path hlists.head).2.1
  have hlive := hlists.live _ (List.mem_of_head? hlists.head)
  obtain ⟨content, hcontent⟩ := Option.isSome_iff_exists.mp hlive
  rw [lastCommit, hcontent, Option.map_some]
  rwa [Heap.prev, hcontent, Option.elim_some, ← Option.some_inj] at hprev

/-- What is left of the ring when a loop gets to `p`: the commits `rest`, from `p` on, and the last
one. -/
structure Left (h : Heap) (last : Addr) (rest : List Addr) (p : Addr) : Prop where
  head : (rest ++ [last]).head? = some p
  path : (rest ++ [last]).IsChain fun x y => h.next x = y
  last : last ∉ rest
  live : ∀ c ∈ rest, c ∈ h.live

theorem History.Lists.left : Left h last init history.commitList := by
  obtain ⟨hpath, -, hlast, -⟩ := hlists.ring.path hlists.head
  exact ⟨hlists.head, hpath, hlast, fun c hc => hlists.live c (by simp [hc])⟩

end Lists

section Left

variable {h : Heap} {last c p : Addr} {rest : List Addr}

theorem Left.ahead (hleft : Left h last rest p) : Ahead h.next last rest p :=
  ⟨hleft.head, hleft.path, hleft.last⟩

theorem Left.next (hleft : Left h last (c :: rest) p) : Left h last rest (h.next p) := by
  obtain ⟨hhead, hpath, hlast⟩ := hleft.ahead.next
  exact ⟨hhead, hpath, hlast, fun x hx => hleft.live x (List.mem_cons_of_mem c hx)⟩

end Left

/-! ### Displaying -/

theorem display_ends {h : Heap} {last p : Addr} {rest : List Addr} (hleft : Left h last rest p)
    (shown : List Print) :
    Ends (fun s => s.1 ≠ last) (displayTurn h) (p, shown)
      (last, shown ++ rest.filterMap (displayCommit h)) := by
  set Inv : List Addr → Addr × List Print → Prop := fun rest' s =>
    Left h last rest' s.1
      ∧ s.2 ++ rest'.filterMap (displayCommit h) = shown ++ rest.filterMap (displayCommit h)
    with hInv
  have hturn : ∀ c l s, Inv (c :: l) s →
      decide (s.1 ≠ last) = true ∧ ∃ s', displayTurn h s = some s' ∧ Inv l s' := by
    rintro c l ⟨p, shown'⟩ ⟨hleft, hshown⟩
    obtain rfl : p = c := hleft.ahead.eq
    obtain ⟨content, hblock, hdisplay, hnext⟩ :=
      displayCommit_of_live (hleft.live p List.mem_cons_self)
    refine ⟨decide_eq_true hleft.ahead.ne_last, (h.next p, shown' ++ [.commit p content]), ?_, ?_, ?_⟩
    · simp [displayTurn, hblock, hdisplay, hnext]
    · exact hleft.next
    · rw [List.filterMap_cons_some hdisplay] at hshown
      rwa [List.append_assoc]
  have hstart : Inv rest (p, shown) := ⟨hleft, rfl⟩
  obtain ⟨⟨p', shown'⟩, hreaches, hleft', hshown⟩ := exists_reaches hturn hstart
  obtain rfl : p' = last := hleft'.ahead.eq_last
  rw [List.filterMap_nil, List.append_nil] at hshown
  rw [← hshown]
  exact hreaches.ends (by simp)

/-- `display_history` prints all commits, in the order of the ring. -/
def ShowsAll (h : Heap) (history : History) (commits : List Addr) : Prop :=
  ∃ turns, displayHistory turns h history
    = some (.historique history.name :: commits.filterMap (displayCommit h) ++ [.newline])

theorem displayHistory_iff {h : Heap} {history : History} {init : List Addr} {last : Addr}
    (hlists : history.Lists h (init ++ [last])) {prints : List Print} :
    (∃ turns, displayHistory turns h history = some prints)
      ↔ prints = .historique history.name :: init.filterMap (displayCommit h) ++ [.newline] := by
  have hends := display_ends hlists.left [.historique history.name]
  have hrun : ∀ turns, displayHistory turns h history
      = (whileLoop (fun s => s.1 ≠ last) (displayTurn h) turns
          (history.commitList, [.historique history.name])).map fun s => s.2 ++ [.newline] := by
    intro turns
    rw [displayHistory, hlists.lastCommit_eq, Option.bind_eq_bind, Option.bind_some]
    exact Option.map_eq_bind.symm
  constructor
  · rintro ⟨turns, hturns⟩
    rw [hrun] at hturns
    obtain ⟨s, hs, rfl⟩ := Option.map_eq_some_iff.mp hturns
    have hsame := Ends.unique ⟨turns, hs⟩ hends
    rw [hsame]
    rfl
  · rintro rfl
    obtain ⟨turns, hturns⟩ := hends
    refine ⟨turns, ?_⟩
    rw [hrun, hturns]
    rfl

/-- **`display_history` ends and prints every commit but the last one, each once and in order.** So
it never prints the whole history. -/
theorem displayHistory_omits_last {h : Heap} {history : History} {commits : List Addr}
    (hlists : history.Lists h commits) :
    (∃ turns, displayHistory turns h history
        = some (.historique history.name :: commits.dropLast.filterMap (displayCommit h)
          ++ [.newline]))
      ∧ ¬ ShowsAll h history commits := by
  obtain ⟨init, last, rfl⟩ := hlists.exists_concat
  rw [List.dropLast_concat]
  refine ⟨(displayHistory_iff hlists).mpr rfl, fun hall => ?_⟩
  have hsame := (displayHistory_iff hlists).mp hall
  obtain ⟨content, -, hdisplay, -⟩ := displayCommit_of_live (hlists.live last (by simp))
  have hlength := congrArg List.length hsame
  simp [hdisplay] at hlength

/-- A history as `new_history` makes it. -/
def firstHistory : History where
  commitCount := 0
  name := 40
  commitList := 16

def firstHeap : Heap where
  block := Function.update (fun _ => none) 16
    (some { id := 1, version := { minor := 0, major := 0 }, comment := 48, next := 16, prev := 16 })
  nextId := 1

theorem lists_firstHistory : firstHistory.Lists firstHeap [16] := by
  refine ⟨rfl, ⟨by simp, by simp, ?_⟩, by decide⟩
  rw [Cycle.chain_singleton]
  exact ⟨rfl, rfl⟩

/-- The same history after `add_minor_commit` and `add_major_commit`. -/
def grownHeap : Heap :=
  (((addMinorCommit firstHeap 32 16 56).bind fun r => addMajorCommit r.1 64 32 72).map Prod.fst).getD {}

theorem lists_grownHeap : firstHistory.Lists grownHeap [16, 32, 64] := by
  refine ⟨rfl, ⟨by simp, by simp, ?_⟩, by decide⟩
  rw [Cycle.chain_coe_cons]
  simp only [List.cons_append, List.nil_append, List.isChain_cons_cons, List.isChain_singleton,
    and_true]
  exact ⟨⟨rfl, rfl⟩, ⟨rfl, rfl⟩, rfl, rfl⟩

theorem displayHistory_omits_third :
    (∃ turns, displayHistory turns grownHeap firstHistory
        = some (.historique 40 :: [16, 32].filterMap (displayCommit grownHeap) ++ [.newline]))
      ∧ ¬ ShowsAll grownHeap firstHistory [16, 32, 64] :=
  displayHistory_omits_last lists_grownHeap

theorem not_showsAll_first :
    firstHistory.Lists firstHeap [16] ∧ ¬ ShowsAll firstHeap firstHistory [16] := by
  refine ⟨lists_firstHistory, fun hall => ?_⟩
  have hlists : firstHistory.Lists firstHeap ([] ++ [16]) := lists_firstHistory
  have hsame := (displayHistory_iff hlists).mp hall
  exact absurd hsame (by decide)

/-! ### Searching -/

/-- The commit at `c` has the version. -/
def Heap.hasVersion (h : Heap) (major : Int32) (minor : UInt64) (c : Addr) : Bool :=
  (h.block c).any fun content => content.version.is major minor

/-- `infos` displays the first commit with the version, or says that there is none. -/
def FindsFirst (h : Heap) (history : History) (commits : List Addr) (major : Int32)
    (minor : UInt64) : Prop :=
  ∃ turns, infos turns h history major minor
    = some (match commits.find? (h.hasVersion major minor) with
      | some c => (displayCommit h c).toList
      | none => [.notHere])

section Infos

variable {h : Heap} {history : History} {major : Int32} {minor : UInt64}

theorem infosTurn_eq {p : Addr} (hp : p ∈ h.live) (found : Bool) :
    infosTurn h major minor (p, found)
      = some (h.next p, h.hasVersion major minor p || found) := by
  obtain ⟨content, hcontent⟩ := Option.isSome_iff_exists.mp hp
  simp [infosTurn, Heap.hasVersion, Heap.next, hcontent]

/-- The loop passes over commits without the version. -/
theorem infos_reaches {last p : Addr} {before after : List Addr}
    (hleft : Left h last (before ++ after) p)
    (hnot : ∀ c ∈ before, h.hasVersion major minor c = false) :
    ∃ p', Left h last after p'
      ∧ Reaches (fun s => !s.2 && s.1 ≠ last) (infosTurn h major minor) (p, false) (p', false) := by
  set Inv : List Addr → Addr × Bool → Prop := fun l s =>
    Left h last (l ++ after) s.1 ∧ s.2 = false
      ∧ ∀ c ∈ l, h.hasVersion major minor c = false with hInv
  have hturn : ∀ c l s, Inv (c :: l) s → (!s.2 && decide (s.1 ≠ last)) = true
      ∧ ∃ s', infosTurn h major minor s = some s' ∧ Inv l s' := by
    rintro c l ⟨p, found⟩ ⟨hleft, rfl, hnot⟩
    obtain rfl : p = c := hleft.ahead.eq
    refine ⟨by simp [hleft.ahead.ne_last], (h.next p, false), ?_, hleft.next, rfl, ?_⟩
    · rw [infosTurn_eq (hleft.live p (by simp)), hnot p (by simp)]
      rfl
    · exact fun c hc => hnot c (List.mem_cons_of_mem p hc)
  have hstart : Inv before (p, false) := ⟨hleft, rfl, hnot⟩
  obtain ⟨⟨p', found⟩, hreaches, hleft', hfound, -⟩ := exists_reaches hturn hstart
  obtain rfl : found = false := hfound
  exact ⟨p', hleft', hreaches⟩

variable {init : List Addr} {last : Addr} (hlists : history.Lists h (init ++ [last]))

include hlists

/-- What `infos` prints, from the state in which its loop ends. -/
theorem infos_iff {s : Addr × Bool}
    (hends : Ends (fun s => !s.2 && s.1 ≠ last) (infosTurn h major minor)
      (history.commitList, false) s) {prints : List Print} :
    (∃ turns, infos turns h history major minor = some prints)
      ↔ (if s.2 then (displayCommit h s.1).map fun line => [line] else some [.notHere])
        = some prints := by
  have hrun : ∀ turns, infos turns h history major minor
      = (whileLoop (fun s => !s.2 && s.1 ≠ last) (infosTurn h major minor) turns
          (history.commitList, false)).bind fun s =>
        if s.2 then (displayCommit h s.1).map fun line => [line] else some [.notHere] := by
    intro turns
    rw [infos, hlists.lastCommit_eq, Option.bind_eq_bind, Option.bind_some]
    simp only [Option.map_eq_bind]
    rfl
  constructor
  · rintro ⟨turns, hturns⟩
    rw [hrun] at hturns
    obtain ⟨s', hs', hprints⟩ := Option.bind_eq_some_iff.mp hturns
    rwa [Ends.unique ⟨turns, hs'⟩ hends] at hprints
  · intro hprints
    obtain ⟨turns, hturns⟩ := hends
    refine ⟨turns, ?_⟩
    rw [hrun, hturns, Option.bind_some]
    exact hprints

/-- No commit but perhaps the last one has the version. -/
theorem infos_of_not_mem (hnot : ∀ c ∈ init, h.hasVersion major minor c = false)
    {prints : List Print} :
    (∃ turns, infos turns h history major minor = some prints) ↔ prints = [.notHere] := by
  have hleft := hlists.left
  rw [← List.append_nil init] at hleft
  obtain ⟨p, hleft, hreaches⟩ := infos_reaches hleft hnot
  rw [infos_iff hlists (hreaches.ends (by simp [hleft.ahead.eq_last])), if_neg Bool.false_ne_true,
    Option.some_inj]
  exact eq_comm

/-- A commit before the last one has the version: what is displayed is the commit after the first
such commit. -/
theorem infos_of_split {before after : List Addr} {c : Addr} (hinit : init = before ++ c :: after)
    (hnot : ∀ c ∈ before, h.hasVersion major minor c = false)
    (hc : h.hasVersion major minor c = true) :
    ∃ d content, d ≠ c ∧ ∀ prints,
      (∃ turns, infos turns h history major minor = some prints) ↔ prints = [.commit d content] := by
  obtain ⟨p, hleft, hreaches⟩ := infos_reaches (hinit ▸ hlists.left) hnot
  obtain rfl : p = c := hleft.ahead.eq
  have hturn : infosTurn h major minor (p, false) = some (h.next p, true) := by
    rw [infosTurn_eq (hleft.live p List.mem_cons_self), hc]
    rfl
  have hends := (hreaches.trans (Reaches.turn (by simp [hleft.ahead.ne_last]) hturn)).ends rfl
  have hmem : h.next p ∈ after ++ [last] := List.mem_of_head? hleft.next.head
  have hcommits : init ++ [last] = before ++ p :: (after ++ [last]) := by
    rw [hinit, List.append_assoc, List.cons_append]
  obtain ⟨content, -, hdisplay, -⟩ := displayCommit_of_live (hlists.live (h.next p) (by
    rw [hcommits]
    exact List.mem_append_right before (List.mem_cons_of_mem p hmem)))
  refine ⟨h.next p, content, ?_, fun prints => ?_⟩
  · have hnodup := Cycle.nodup_coe_iff.mp hlists.ring.nodup
    rw [hcommits] at hnodup
    have hp := (List.nodup_cons.mp (List.nodup_append.mp hnodup).2.1).1
    exact fun heq => hp (heq ▸ hmem)
  · rw [infos_iff hlists hends, if_pos rfl, hdisplay, Option.map_some, Option.some_inj]
    exact eq_comm

/-- What `infos` prints, in both cases. -/
theorem infos_cases (major : Int32) (minor : UInt64) :
    ((∀ c ∈ init, h.hasVersion major minor c = false) ∧ ∀ prints,
        (∃ turns, infos turns h history major minor = some prints) ↔ prints = [.notHere])
      ∨ ∃ c d content, init.find? (h.hasVersion major minor) = some c ∧ d ≠ c ∧ ∀ prints,
        (∃ turns, infos turns h history major minor = some prints)
          ↔ prints = [.commit d content] := by
  cases hfind : init.find? (h.hasVersion major minor) with
  | none =>
      have hnot : ∀ c ∈ init, h.hasVersion major minor c = false := fun c hc => by
        simpa using List.find?_eq_none.mp hfind c hc
      exact Or.inl ⟨hnot, fun prints => infos_of_not_mem hlists hnot⟩
  | some c =>
      obtain ⟨hc, before, after, hinit, hnot⟩ := List.find?_eq_some_iff_append.mp hfind
      obtain ⟨d, content, hne, hprints⟩ := infos_of_split hlists hinit (by simpa using hnot) hc
      exact Or.inr ⟨c, d, content, rfl, hne, hprints⟩

end Infos

theorem infos_ends {h : Heap} {history : History} {commits : List Addr}
    (hlists : history.Lists h commits) (major : Int32) (minor : UInt64) :
    ∃ turns prints, infos turns h history major minor = some prints := by
  obtain ⟨init, last, rfl⟩ := hlists.exists_concat
  rcases infos_cases hlists major minor with ⟨-, hprints⟩ | ⟨-, d, content, -, -, hprints⟩
  · obtain ⟨turns, hturns⟩ := (hprints _).mpr rfl
    exact ⟨turns, _, hturns⟩
  · obtain ⟨turns, hturns⟩ := (hprints _).mpr rfl
    exact ⟨turns, _, hturns⟩

/-- **`infos` always ends, and is right exactly when no commit has the version.** -/
theorem findsFirst_iff {h : Heap} {history : History} {commits : List Addr}
    (hlists : history.Lists h commits) (major : Int32) (minor : UInt64) :
    (∃ turns prints, infos turns h history major minor = some prints)
      ∧ (FindsFirst h history commits major minor
        ↔ ∀ c ∈ commits, h.hasVersion major minor c = false) := by
  refine ⟨infos_ends hlists major minor, ?_⟩
  obtain ⟨init, last, rfl⟩ := hlists.exists_concat
  rcases infos_cases hlists major minor with ⟨hnot, hprints⟩ | ⟨c, d, content, hfind, hne, hprints⟩
  · have hfind : init.find? (h.hasVersion major minor) = none :=
      List.find?_eq_none.mpr fun c hc => by simp [hnot c hc]
    rw [FindsFirst, hprints, List.find?_append, hfind, Option.none_or, List.forall_mem_append,
      and_iff_right hnot, List.forall_mem_singleton, List.find?_singleton]
    cases hlast : h.hasVersion major minor last with
    | true =>
        obtain ⟨content, -, hdisplay, -⟩ := displayCommit_of_live (hlists.live last (by simp))
        simp [hdisplay]
    | false => simp
  · have hc : c ∈ init ++ [last] := List.mem_append_left _ (List.mem_of_find?_eq_some hfind)
    obtain ⟨content', -, hdisplay, -⟩ := displayCommit_of_live (hlists.live c hc)
    apply iff_of_false
    · rw [FindsFirst, hprints, List.find?_append, hfind, Option.some_or]
      simp [hdisplay, hne.symm]
    · intro hnone
      have hversion := List.find?_some hfind
      simp [hnone c hc] at hversion

theorem findsFirst_missing : FindsFirst grownHeap firstHistory [16, 32, 64] 1 7 :=
  (findsFirst_iff lists_grownHeap 1 7).2.mpr (by decide)

theorem not_findsFirst_first :
    firstHistory.Lists firstHeap [16] ∧ ¬ FindsFirst firstHeap firstHistory [16] 0 0 := by
  refine ⟨lists_firstHistory, fun hfinds => ?_⟩
  have hlists : firstHistory.Lists firstHeap ([] ++ [16]) := lists_firstHistory
  have hsame := (infos_of_not_mem hlists (by simp)).mp hfinds
  exact absurd hsame (by decide)

end Pnl.Commits
