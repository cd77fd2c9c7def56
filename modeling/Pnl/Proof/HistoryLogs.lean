import Pnl.Proof.CommitContents
import Pnl.Proof.HistoryLoops

/-!
# What a history shows

Read from the commit it points to, a history is a log: a list of entries, each with a number, a
version and a comment. Adding a commit puts an entry in behind another one, deleting one takes its
entry out, and what happens to other histories in the same heap does not show. What a program prints
is then a function of the log, with no pointers in it.
-/

namespace Pnl.Commits

open Loops Rings

/-- The commits of a history in their order, and the table of what all commits say. -/
structure Log where
  order : List Addr
  contents : Contents

def Log.entries (log : Log) : List Content := log.order.filterMap log.contents.content

/-- The text of an entry. -/
def Content.line (strings : Addr → List UInt8) (c : Content) : List UInt8 :=
  Print.text strings (.commit null
    { id := c.id, version := c.version, comment := c.comment, next := null, prev := null })

/-- `infos` answers with the entry behind the first one of the version, and never looks at the last
one. -/
def answer (major : Int32) (minor : UInt64) : List Content → Option Content
  | c :: d :: entries =>
      if c.version.is major minor then some d else answer major minor (d :: entries)
  | _ => none

def Call.orderAfter (order : List Addr) : Call → List Addr
  | .newCommit _ _ _ _ => order
  | .addMinorCommit new from_ _ => insertBehind from_ new order
  | .addMajorCommit new from_ _ => insertBehind from_ new order
  | .delCommit victim => order.erase victim

def Call.logAfter (log : Log) (call : Call) : Log where
  order := call.orderAfter log.order
  contents := call.contentsAfter log.contents

def Use.logAfter (log : Log) : Use → Log
  | .call c => c.logAfter log
  | _ => log

def Use.text (strings : Addr → List UInt8) (name : Addr) (log : Log) : Use → List UInt8
  | .call _ => []
  | .displayHistory =>
      Print.text strings (.historique name)
        ++ log.entries.dropLast.flatMap (Content.line strings)
        ++ Print.text strings .newline
  | .displayLast => log.entries.getLast?.elim [] (Content.line strings)
  | .infos major minor =>
      (answer major minor log.entries).elim (Print.text strings .notHere) (Content.line strings)

/-- Everything a program prints. -/
def transcript (strings : Addr → List UInt8) (name : Addr) (log : Log) : List Use → List UInt8
  | [] => []
  | use :: uses => use.text strings name log ++ transcript strings name (use.logAfter log) uses

/-- The heap holds the log, which starts at `anchor`. -/
structure Log.At (log : Log) (h : Heap) (anchor : Addr) : Prop where
  head : log.order.head? = some anchor
  ring : ∃ rings, h.Represents rings ∧ (log.order : Cycle Addr) ∈ rings
  holds : h.Holds log.contents

/-! ### Calls -/

section Calls

variable {log : Log} {h : Heap} {anchor : Addr} (hat : log.At h anchor)

include hat

theorem Log.At.head_orderAfter {call : Call} (hspare : call ≠ .delCommit anchor) :
    (call.orderAfter log.order).head? = some anchor := by
  cases call with
  | newCommit malloc major minor comment => exact hat.head
  | addMinorCommit malloc from_ comment =>
      exact (head?_insertBehind from_ malloc log.order).trans hat.head
  | addMajorCommit malloc from_ comment =>
      exact (head?_insertBehind from_ malloc log.order).trans hat.head
  | delCommit victim =>
      apply head?_erase_of_ne hat.head
      exact fun heq => hspare (congrArg Call.delCommit heq)

theorem Log.At.orderAfter_mem {rings : Set (Cycle Addr)} (hmem : (log.order : Cycle Addr) ∈ rings)
    {call : Call} (hspare : call ≠ .delCommit anchor) :
    (call.orderAfter log.order : Cycle Addr) ∈ call.ringsAfter rings := by
  cases call with
  | newCommit malloc major minor comment => exact Or.inr hmem
  | addMinorCommit malloc from_ comment => exact coe_insertBehind_mem hmem from_ malloc
  | addMajorCommit malloc from_ comment => exact coe_insertBehind_mem hmem from_ malloc
  | delCommit victim =>
      apply coe_erase_mem hmem hat.head
      exact fun heq => hspare (congrArg Call.delCommit heq)

/-- **A call that leaves the first commit in place does to the log what its name says.** -/
theorem Log.At.run {call : Call} (hpre : call.Pre h) (hspare : call ≠ .delCommit anchor) :
    ∃ r, call.run h = some r ∧ (call.logAfter log).At r.1 anchor := by
  obtain ⟨rings, hrep, hmem⟩ := hat.ring
  obtain ⟨h', a, hrun, hrep'⟩ := run_represents hrep hpre
  refine ⟨(h', a), hrun, hat.head_orderAfter hspare, ?_, hat.holds.run hrun⟩
  exact ⟨call.ringsAfter rings, hrep', hat.orderAfter_mem hmem hspare⟩

theorem Log.At.lists {history : History} (hanchor : history.commitList = anchor) :
    history.Lists h log.order := by
  obtain ⟨rings, hrep, hmem⟩ := hat.ring
  refine ⟨hanchor ▸ hat.head, hrep.isRing _ hmem, fun c hc => ?_⟩
  exact (hrep.covers c).mpr ⟨_, hmem, Cycle.mem_coe_iff.mpr hc⟩

end Calls

/-! ### Text -/

section Text

variable {h : Heap} (strings : Addr → List UInt8)

theorem text_commit {a : Addr} {c : Commit} :
    Print.text strings (.commit a c) = c.content.line strings := rfl

theorem text_displayCommit (commits : List Addr) :
    (commits.filterMap (displayCommit h)).flatMap (Print.text strings)
      = (commits.filterMap h.content).flatMap (Content.line strings) := by
  induction commits with
  | nil => rfl
  | cons a commits ih =>
      cases hblock : h.block a with
      | none =>
          rw [List.filterMap_cons_none (by rw [displayCommit, hblock, Option.map_none]),
            List.filterMap_cons_none (by rw [Heap.content, hblock, Option.map_none]), ih]
      | some c =>
          rw [List.filterMap_cons_some (by rw [displayCommit, hblock, Option.map_some]),
            List.filterMap_cons_some (by rw [Heap.content, hblock, Option.map_some]),
            List.flatMap_cons, List.flatMap_cons, text_commit, ih]

end Text

/-! ### Reading -/

theorem hasVersion_of_content {h : Heap} {a : Addr} {c : Content} (hc : h.content a = some c)
    (major : Int32) (minor : UInt64) : h.hasVersion major minor a = c.version.is major minor := by
  obtain ⟨commit, hcommit, rfl⟩ := Option.map_eq_some_iff.mp hc
  rw [Heap.hasVersion, hcommit, Option.any_some, Commit.content]

section Left

variable {h : Heap} {last p : Addr} {rest : List Addr}

theorem Left.live_head (hleft : Left h last rest p) (hlast : last ∈ h.live) : p ∈ h.live := by
  have hmem := List.mem_of_head? hleft.head
  rw [List.mem_append, List.mem_singleton] at hmem
  rcases hmem with hrest | rfl
  · exact hleft.live p hrest
  · exact hlast

theorem Left.entries (hleft : Left h last rest p) (hlast : last ∈ h.live) :
    ∃ c entries, h.content p = some c ∧ (rest ++ [last]).filterMap h.content = c :: entries := by
  obtain ⟨c, hc⟩ := mem_live_iff_content.mp (hleft.live_head hlast)
  obtain ⟨tail, htail⟩ := List.head?_eq_some_iff.mp hleft.head
  exact ⟨c, tail.filterMap h.content, hc, by rw [htail, List.filterMap_cons_some hc]⟩

/-- The loop of `infos` runs out of commits when there is no answer, and otherwise ends at the commit
that is the answer. -/
theorem infos_answers (major : Int32) (minor : UInt64) (hleft : Left h last rest p)
    (hlast : last ∈ h.live) :
    (answer major minor ((rest ++ [last]).filterMap h.content) = none
        ∧ Reaches (fun s => !s.2 && s.1 ≠ last) (infosTurn h major minor) (p, false) (last, false))
      ∨ ∃ a d, answer major minor ((rest ++ [last]).filterMap h.content) = some d
        ∧ h.content a = some d
        ∧ Reaches (fun s => !s.2 && s.1 ≠ last) (infosTurn h major minor) (p, false) (a, true) := by
  induction rest generalizing p with
  | nil =>
      obtain rfl := hleft.ahead.eq_last
      obtain ⟨c, hc⟩ := mem_live_iff_content.mp hlast
      refine Or.inl ⟨?_, Reaches.refl _⟩
      rw [List.nil_append, List.filterMap_cons_some hc]
      rfl
  | cons a rest ih =>
      obtain rfl := hleft.ahead.eq
      have hp : p ∈ h.live := hleft.live p List.mem_cons_self
      obtain ⟨c, hc⟩ := mem_live_iff_content.mp hp
      obtain ⟨d, entries, hd, hentries⟩ := hleft.next.entries hlast
      have hturn : infosTurn h major minor (p, false)
          = some (h.next p, c.version.is major minor) := by
        rw [infosTurn_eq hp, Bool.or_false, hasVersion_of_content hc]
      have hstep : Reaches (fun s => !s.2 && s.1 ≠ last) (infosTurn h major minor) (p, false)
          (h.next p, c.version.is major minor) :=
        Reaches.turn (by simp [hleft.ahead.ne_last]) hturn
      rw [List.cons_append, List.filterMap_cons_some hc, hentries, answer, ← hentries]
      cases hversion : c.version.is major minor with
      | true =>
          rw [hversion] at hstep
          exact Or.inr ⟨h.next p, d, if_pos rfl, hd, hstep⟩
      | false =>
          rw [hversion] at hstep
          rw [if_neg Bool.false_ne_true]
          rcases ih hleft.next with ⟨hnone, hreaches⟩ | ⟨a, d, hsome, ha, hreaches⟩
          · exact Or.inl ⟨hnone, hstep.trans hreaches⟩
          · exact Or.inr ⟨a, d, hsome, ha, hstep.trans hreaches⟩

end Left

section Read

variable {h : Heap} {history : History}

theorem displayHistory_add {turns : Nat} {prints : List Print}
    (hrun : displayHistory turns h history = some prints) (n : Nat) :
    displayHistory (turns + n) h history = some prints := by
  simp only [displayHistory, Option.bind_eq_bind, Option.bind_eq_some_iff] at hrun ⊢
  obtain ⟨q, hq, s, hs, hprints⟩ := hrun
  exact ⟨q, hq, s, whileLoop_add hs n, hprints⟩

theorem infos_add {turns : Nat} {major : Int32} {minor : UInt64} {prints : List Print}
    (hrun : infos turns h history major minor = some prints) (n : Nat) :
    infos (turns + n) h history major minor = some prints := by
  simp only [infos, Option.bind_eq_bind, Option.bind_eq_some_iff] at hrun ⊢
  obtain ⟨q, hq, s, hs, hprints⟩ := hrun
  exact ⟨q, hq, s, whileLoop_add hs n, hprints⟩

/-- The use runs, whatever the bound from some number of turns on, and prints what it says. -/
def Use.Shows (use : Use) (history : History) (log : Log) (h h' : Heap) : Prop :=
  ∃ turns prints, (∀ n, use.run (turns + n) history h = some (h', prints))
    ∧ ∀ strings, prints.flatMap (Print.text strings) = use.text strings history.name log

theorem Call.shows {c : Call} {r : Heap × Addr} (hrun : c.run h = some r) (log : Log) :
    (Use.call c).Shows history log h r.1 := by
  refine ⟨0, [], fun n => ?_, fun strings => rfl⟩
  rw [Use.run, hrun, Option.bind_eq_bind, Option.bind_some]
  rfl

variable {log : Log} (hlists : history.Lists h log.order) (hholds : h.Holds log.contents)

include hlists hholds

/-- The log, split where the ring is. -/
theorem Log.exists_entries :
    ∃ init last c, history.Lists h (init ++ [last]) ∧ h.content last = some c
      ∧ log.entries = (init ++ [last]).filterMap h.content
      ∧ log.entries = init.filterMap h.content ++ [c] := by
  obtain ⟨init, last, horder⟩ := hlists.exists_concat
  rw [horder] at hlists
  obtain ⟨c, hc⟩ := mem_live_iff_content.mp (hlists.live last (by simp))
  have hentries : log.entries = (init ++ [last]).filterMap h.content := by
    rw [Log.entries, horder, hholds.content]
  refine ⟨init, last, c, hlists, hc, hentries, ?_⟩
  rw [hentries, List.filterMap_append, List.filterMap_cons_some hc, List.filterMap_nil]

theorem displayHistory_shows : Use.displayHistory.Shows history log h h := by
  obtain ⟨init, last, c, hlists, hc, -, hentries⟩ := Log.exists_entries hlists hholds
  obtain ⟨turns, hrun⟩ := (displayHistory_iff hlists).mpr rfl
  refine ⟨turns, .historique history.name :: init.filterMap (displayCommit h) ++ [.newline],
    fun n => ?_, fun strings => ?_⟩
  · rw [Use.run, displayHistory_add hrun, Option.bind_eq_bind, Option.bind_some]
    rfl
  · rw [Use.text, hentries, List.dropLast_concat, ← text_displayCommit, List.flatMap_append,
      List.flatMap_cons, List.flatMap_singleton]

theorem displayLast_shows : Use.displayLast.Shows history log h h := by
  obtain ⟨init, last, c, hlists, hc, -, hentries⟩ := Log.exists_entries hlists hholds
  obtain ⟨commit, hcommit, rfl⟩ := Option.map_eq_some_iff.mp hc
  refine ⟨0, [.commit last commit], fun n => ?_, fun strings => ?_⟩
  · simp only [Use.run, hlists.lastCommit_eq, displayCommit, hcommit, Option.map_some,
      Option.bind_eq_bind, Option.bind_some]
    rfl
  · rw [Use.text, hentries, List.getLast?_concat, List.flatMap_singleton, Option.elim_some,
      text_commit]

theorem infos_shows (major : Int32) (minor : UInt64) :
    (Use.infos major minor).Shows history log h h := by
  obtain ⟨init, last, c, hlists, hc, hentries, -⟩ := Log.exists_entries hlists hholds
  have hlast : last ∈ h.live := mem_live_iff_content.mpr ⟨c, hc⟩
  suffices hshown : ∃ turns line, infos turns h history major minor = some [line]
      ∧ ∀ strings, line.text strings = (Use.infos major minor).text strings history.name log by
    obtain ⟨turns, line, hrun, htext⟩ := hshown
    refine ⟨turns, [line], fun n => ?_, fun strings => ?_⟩
    · rw [Use.run, infos_add hrun, Option.bind_eq_bind, Option.bind_some]
      rfl
    · rw [List.flatMap_singleton, htext]
  rcases infos_answers major minor hlists.left hlast with
    ⟨hnone, hreaches⟩ | ⟨a, d, hsome, ha, hreaches⟩
  · have hends := hreaches.ends (by simp)
    obtain ⟨turns, hrun⟩ := (infos_iff hlists hends).mpr rfl
    refine ⟨turns, _, hrun, fun strings => ?_⟩
    rw [Use.text, hentries, hnone, Option.elim_none]
  · have hends := hreaches.ends (by simp)
    obtain ⟨commit, hcommit, rfl⟩ := Option.map_eq_some_iff.mp ha
    obtain ⟨turns, hrun⟩ : ∃ turns, infos turns h history major minor = some [.commit a commit] := by
      rw [infos_iff hlists hends, if_pos rfl, displayCommit, hcommit, Option.map_some,
        Option.map_some]
    refine ⟨turns, _, hrun, fun strings => ?_⟩
    rw [Use.text, hentries, hsome, Option.elim_some, text_commit]

end Read

/-! ### Programs -/

/-- The program runs with every bound from some number of turns on, and prints the transcript. -/
def Transcribes (history : History) (log : Log) (h : Heap) (uses : List Use) : Prop :=
  ∃ turns h' prints, (∀ n, runUses (turns + n) history h uses = some (h', prints))
    ∧ ∀ strings, prints.flatMap (Print.text strings) = transcript strings history.name log uses

theorem Use.Shows.cons {use : Use} {uses : List Use} {history : History} {log : Log} {h h' : Heap}
    (huse : use.Shows history log h h') (huses : Transcribes history (use.logAfter log) h' uses) :
    Transcribes history log h (use :: uses) := by
  obtain ⟨turns, prints, hrun, htext⟩ := huse
  obtain ⟨turns', h'', prints', hruns, htexts⟩ := huses
  refine ⟨turns + turns', h'', prints ++ prints', fun n => ?_, fun strings => ?_⟩
  · have hrest := hruns (turns + n)
    rw [Nat.add_left_comm, ← Nat.add_assoc] at hrest
    simp only [runUses, Nat.add_assoc, hrun, Option.bind_eq_bind, Option.bind_some]
    rw [← Nat.add_assoc, hrest, Option.bind_some]
    rfl
  · rw [List.flatMap_append, htext, htexts, transcript]

/-- **Step by step, what a program prints is what the uses say of the log.** -/
theorem Log.At.transcribes {log : Log} {h : Heap} {history : History} {uses : List Use}
    (hat : log.At h history.commitList) (hcalls : Admissible h (calls uses))
    (hspare : Call.delCommit history.commitList ∉ calls uses) :
    Transcribes history log h uses := by
  induction uses generalizing log h with
  | nil => exact ⟨0, h, [], fun n => rfl, fun strings => rfl⟩
  | cons use uses ih =>
      cases use with
      | call c =>
          have hcons : calls (.call c :: uses) = c :: calls uses := rfl
          rw [hcons, List.mem_cons, not_or] at hspare
          obtain ⟨r, hrun, hat'⟩ := hat.run hcalls.1 (Ne.symm hspare.1)
          exact (Call.shows hrun log).cons (ih hat' (hcalls.2 r hrun) hspare.2)
      | displayHistory =>
          exact (displayHistory_shows (hat.lists rfl) hat.holds).cons (ih hat hcalls hspare)
      | displayLast =>
          exact (displayLast_shows (hat.lists rfl) hat.holds).cons (ih hat hcalls hspare)
      | infos major minor =>
          exact (infos_shows (hat.lists rfl) hat.holds major minor).cons (ih hat hcalls hspare)

/-- The log of `new_history`. -/
def firstLog (contents : Contents) (c first : Addr) : Log where
  order := [c]
  contents := contents.create c { major := 0, minor := 0 } first

theorem at_firstLog {before : List Call} {h : Heap} {malloc c name first : Addr}
    {r : Heap × History} (hbefore : Admissible {} before) (hheap : runCalls {} before = some h)
    (hfresh : c ∉ h.live) (hnew : newHistory h malloc c name first = some r) :
    (firstLog (before.foldl Call.contentsAfter {}) c first).At r.1 r.2.commitList
      ∧ r.2.commitList = c ∧ r.2.name = name := by
  obtain ⟨h', hheap', hrep⟩ := runCalls_represents represents_empty hbefore
  obtain rfl := Option.some.inj (hheap.symm.trans hheap')
  have hholds := holds_empty.runCalls hheap
  unfold newHistory at hnew
  split at hnew
  · contradiction
  obtain ⟨⟨h', c'⟩, hrun, rfl⟩ := Option.map_eq_some_iff.mp hnew
  have hnull : c ≠ null := by
    rintro rfl
    rw [newCommit, if_pos rfl] at hrun
    contradiction
  have hpre : (Call.newCommit c 0 0 first).Pre h := ⟨hnull, hfresh⟩
  obtain ⟨h₁, a, hrun₁, hrep₁⟩ := run_represents hrep hpre
  obtain ⟨hc, hholds'⟩ := hholds.newCommit hrun
  obtain ⟨rfl, -⟩ := Prod.mk.inj (Option.some.inj (hrun.symm.trans hrun₁))
  obtain rfl : c' = c := hc
  exact ⟨⟨rfl, ⟨_, hrep₁, Set.mem_insert _ _⟩, hholds'⟩, rfl, rfl⟩

/-- **A history is its log.** Whatever was on the heap before, a program that leaves the first commit
of its history in place runs to its end, and all it prints is the transcript of the log. -/
theorem runUses_transcribes {before : List Call} {uses : List Use} {h : Heap}
    {malloc c name first : Addr} {r : Heap × History} (hbefore : Admissible {} before)
    (hheap : runCalls {} before = some h) (hfresh : c ∉ h.live)
    (hnew : newHistory h malloc c name first = some r) (hcalls : Admissible r.1 (calls uses))
    (hspare : Call.delCommit c ∉ calls uses) :
    ∃ turns h' prints, (∀ n, runUses (turns + n) r.2 r.1 uses = some (h', prints))
      ∧ ∀ strings, prints.flatMap (Print.text strings)
        = transcript strings name (firstLog (before.foldl Call.contentsAfter {}) c first) uses := by
  obtain ⟨hat, rfl, rfl⟩ := at_firstLog hbefore hheap hfresh hnew
  exact hat.transcribes hcalls hspare

/-- What `testHistory.c` does with its history, when `malloc` uses the block of the deleted commit
again at once. -/
def testHistory : List Use :=
  [.displayLast, .displayHistory,
    .call (.addMinorCommit 32 16 1), .call (.addMinorCommit 48 32 2),
    .call (.addMinorCommit 64 48 3), .call (.addMinorCommit 80 64 4), .displayHistory,
    .call (.delCommit 64), .displayHistory,
    .call (.addMajorCommit 64 80 5), .call (.addMinorCommit 96 64 1),
    .call (.addMinorCommit 112 96 2), .call (.addMajorCommit 128 112 6),
    .call (.addMinorCommit 144 128 1), .displayHistory,
    .call (.addMinorCommit 160 80 7), .displayHistory,
    .infos 1 2, .infos 1 7, .infos 4 2]

example : (testHistory.foldl Use.logAfter (firstLog {} 16 48)).order
    = [16, 32, 48, 80, 160, 64, 96, 112, 128, 144] := by decide

theorem runUses_transcribes_testHistory :
    ∃ turns h' prints, (∀ n, runUses (turns + n) firstHistory firstHeap testHistory
        = some (h', prints))
      ∧ ∀ strings, prints.flatMap (Print.text strings)
        = transcript strings 40 (firstLog {} 16 48) testHistory := by
  have hbefore : Admissible {} [] := trivial
  have hnew : newHistory {} 8 16 40 48 = some (firstHeap, firstHistory) := rfl
  have hcalls : Admissible firstHeap (calls testHistory) := by decide
  have hspare : Call.delCommit 16 ∉ calls testHistory := by simp [calls, testHistory]
  exact runUses_transcribes hbefore rfl (by decide) hnew hcalls hspare

end Pnl.Commits
