import Pnl.Lib.Runs
import Pnl.Proof.CommitRings
import Pnl.Proof.HistoryLoops

/-!
# The commit a history points to

A history points to one commit of its ring for as long as it lives, and `del_commit` does not know
it. Adding commits and deleting others keeps the ring of that commit; deleting that commit while
there are others leaves the history with a pointer to freed memory.
-/

namespace Pnl.Commits

open Rings Runs

/-- A history under use, with its live commits. -/
structure Session where
  heap : Heap
  history : History
  commits : Finset Addr

def Call.commitsAfter (commits : Finset Addr) : Call → Finset Addr
  | .newCommit _ _ _ _ => commits
  | .addMinorCommit malloc _ _ => insert malloc commits
  | .addMajorCommit malloc _ _ => insert malloc commits
  | .delCommit victim => commits.erase victim

def Session.after (s : Session) (call : Call) (heap : Heap) : Session :=
  { s with heap := heap, commits := call.commitsAfter s.commits }

/-- A call on the history; nothing is left of a run after undefined behaviour. -/
def session (s : Option Session) (call : Call) : Option Session :=
  s.bind fun s => (call.run s.heap).map fun r => s.after call r.1

/-- The call is one of the three, on a live commit of the history. -/
def Call.On (commits : Finset Addr) : Call → Prop
  | .newCommit _ _ _ _ => False
  | .addMinorCommit _ from_ _ => from_ ∈ commits
  | .addMajorCommit _ from_ _ => from_ ∈ commits
  | .delCommit victim => victim ∈ commits

instance Call.decidableOn (commits : Finset Addr) : (call : Call) → Decidable (call.On commits)
  | .newCommit _ _ _ _ => inferInstanceAs (Decidable False)
  | .addMinorCommit _ from_ _ => inferInstanceAs (Decidable (from_ ∈ commits))
  | .addMajorCommit _ from_ _ => inferInstanceAs (Decidable (from_ ∈ commits))
  | .delCommit victim => inferInstanceAs (Decidable (victim ∈ commits))

def Call.Allowed (s : Option Session) (call : Call) : Prop :=
  ∀ s' ∈ s, call.Pre s'.heap ∧ call.On s'.commits

instance Call.decidableAllowed (s : Option Session) (call : Call) : Decidable (call.Allowed s) :=
  inferInstanceAs (Decidable (∀ s' ∈ s, call.Pre s'.heap ∧ call.On s'.commits))

/-- The history can be read: it points to one of its live commits, and the functions that start
there end. -/
structure Session.Sound (s : Session) : Prop where
  anchor : s.history.commitList ∈ s.commits
  live : ∀ c ∈ s.commits, c ∈ s.heap.live
  last : ∃ c ∈ s.commits, lastCommit s.heap s.history = some c
  display : ∃ turns prints, displayHistory turns s.heap s.history = some prints
  infos : ∀ major minor, ∃ turns prints, infos turns s.heap s.history major minor = some prints

/-- The call is defined, and if commits are left the history can be read and `del_commit` returned
one of them. -/
def Call.Keeps (s : Option Session) (call : Call) : Prop :=
  ∃ s' r, s = some s' ∧ call.run s'.heap = some r
    ∧ ((s'.after call r.1).commits.Nonempty → (s'.after call r.1).Sound
      ∧ ∀ victim, call = .delCommit victim → r.2 ∈ (s'.after call r.1).commits)

/-- The call does not delete the commit the history points to, unless it is the only one. -/
def Call.SparesAnchor (s : Option Session) : Call → Prop
  | .delCommit victim => ∀ s' ∈ s, victim = s'.history.commitList → s'.commits = {victim}
  | _ => True

/-- The commits of the session are those of one ring, the one the history points into. -/
structure Session.Ring (s : Session) (rings : Set (Cycle Addr)) : Prop where
  represents : s.heap.Represents rings
  ring : s.commits.Nonempty → ∃ c ∈ rings, s.history.commitList ∈ c ∧ ∀ a, a ∈ s.commits ↔ a ∈ c

section Ring

variable {s : Session} {rings : Set (Cycle Addr)} (hring : s.Ring rings)

include hring

theorem Session.Ring.sound (hne : s.commits.Nonempty) : s.Sound := by
  obtain ⟨c, hc, hanchor, hcommits⟩ := hring.ring hne
  obtain ⟨l, rfl⟩ := exists_cons_of_mem hanchor
  have hlive : ∀ a ∈ s.commits, a ∈ s.heap.live := fun a ha =>
    (hring.represents.covers a).mpr ⟨_, hc, (hcommits a).mp ha⟩
  have hlists : s.history.Lists s.heap (s.history.commitList :: l) := by
    refine ⟨rfl, hring.represents.isRing _ hc, fun a ha => ?_⟩
    exact hlive a ((hcommits a).mpr (Cycle.mem_coe_iff.mpr ha))
  obtain ⟨init, last, hsplit⟩ := hlists.exists_concat
  have hlists' := hsplit ▸ hlists
  refine ⟨(hcommits _).mpr hanchor, hlive, ⟨last, ?_, hlists'.lastCommit_eq⟩, ?_, ?_⟩
  · rw [hcommits, Cycle.mem_coe_iff, hsplit]
    exact List.mem_append_right init List.mem_cons_self
  · obtain ⟨turns, hturns⟩ := (displayHistory_iff hlists').mpr rfl
    exact ⟨turns, _, hturns⟩
  · exact infos_ends hlists

theorem Session.Ring.insert {from_ new : Addr} {heap : Heap} (hfrom : from_ ∈ s.commits)
    (hrep : heap.Represents (insertAfter rings from_ new)) :
    { s with heap := heap, commits := insert new s.commits }.Ring (insertAfter rings from_ new) := by
  refine ⟨hrep, fun _ => ?_⟩
  obtain ⟨c, hc, hanchor, hcommits⟩ := hring.ring ⟨from_, hfrom⟩
  obtain ⟨c', hc', hmem⟩ := exists_insertAfter hc ((hcommits from_).mp hfrom) new
  refine ⟨c', hc', (hmem _).mpr (Or.inr hanchor), fun a => ?_⟩
  rw [Finset.mem_insert, hcommits, hmem]

theorem Session.Ring.remove {victim : Addr} {heap : Heap} (hvictim : victim ∈ s.commits)
    (hspare : victim = s.history.commitList → s.commits = {victim})
    (hrep : heap.Represents (remove rings victim)) :
    { s with heap := heap, commits := s.commits.erase victim }.Ring (remove rings victim) := by
  refine ⟨hrep, fun hne => ?_⟩
  obtain ⟨c, hc, hanchor, hcommits⟩ := hring.ring ⟨victim, hvictim⟩
  have hother : s.history.commitList ≠ victim := by
    intro heq
    have hempty := hspare heq.symm
    dsimp only at hne
    rw [hempty, Finset.erase_singleton] at hne
    exact Finset.not_nonempty_empty hne
  obtain ⟨c', hc', hmem⟩ := exists_remove hc (hring.represents.isRing c hc).nodup
    ((hcommits victim).mp hvictim) hanchor hother
  refine ⟨c', hc', (hmem _).mpr ⟨hanchor, hother⟩, fun a => ?_⟩
  rw [Finset.mem_erase, hcommits, hmem, and_comm]

/-- Where other commits are left, the commit before a deleted one is one of them. -/
theorem Session.Ring.prev_mem {victim : Addr} (hvictim : victim ∈ s.commits)
    (hne : (s.commits.erase victim).Nonempty) : s.heap.prev victim ∈ s.commits.erase victim := by
  obtain ⟨c, hc, -, hcommits⟩ := hring.ring ⟨victim, hvictim⟩
  obtain ⟨w, hw⟩ := hne
  obtain ⟨hwvictim, hw⟩ := Finset.mem_erase.mp hw
  obtain ⟨hprev, hprevne⟩ := hring.represents.prev_mem hc ((hcommits victim).mp hvictim)
    ((hcommits w).mp hw) hwvictim
  exact Finset.mem_erase.mpr ⟨hprevne, (hcommits _).mpr hprev⟩

/-- **A call that spares the commit the history points to keeps the ring of that commit.** -/
theorem Session.Ring.after {call : Call} (hpre : call.Pre s.heap) (hon : call.On s.commits)
    (hspare : call.SparesAnchor (some s)) :
    ∃ r, call.run s.heap = some r ∧ (s.after call r.1).Ring (call.ringsAfter rings)
      ∧ ∀ victim, call = .delCommit victim → (s.after call r.1).commits.Nonempty →
        r.2 ∈ (s.after call r.1).commits := by
  obtain ⟨h', a, hrun, hrep⟩ := run_represents hring.represents hpre
  refine ⟨(h', a), hrun, ?_, ?_⟩
  · cases call with
    | newCommit malloc major minor comment => exact hon.elim
    | addMinorCommit malloc from_ comment => exact hring.insert hon hrep
    | addMajorCommit malloc from_ comment => exact hring.insert hon hrep
    | delCommit victim => exact hring.remove hon (hspare s rfl) hrep
  · rintro victim rfl hne
    have hlive : victim ∈ s.heap.live := hpre
    obtain ⟨hnext, hprev, -, -⟩ := hring.represents.inverse hlive
    obtain ⟨_, hrun', -⟩ := delCommit_spec hlive hprev hnext
    obtain ⟨-, rfl⟩ := Prod.mk.inj (Option.some.inj (hrun.symm.trans hrun'))
    exact hring.prev_mem hon hne

end Ring

/-! ### Runs -/

/-- Until undefined behaviour, the commits are those of one ring. -/
def SessionInv (s : Option Session) : Prop := ∃ s' rings, s = some s' ∧ s'.Ring rings

theorem SessionInv.keeps_iff {s : Option Session} {call : Call} (h : SessionInv s)
    (hallowed : call.Allowed s) : call.Keeps s ↔ call.SparesAnchor s := by
  obtain ⟨s', rings, rfl, hring⟩ := h
  obtain ⟨hpre, hon⟩ := hallowed s' rfl
  constructor
  · rintro ⟨s'', r, hs'', hrun, hkeeps⟩
    obtain rfl := Option.some.inj hs''
    cases call with
    | delCommit victim =>
        rintro s'' hs'' heq
        obtain rfl := Option.some.inj hs''
        by_contra hother
        have hne : (s'.commits.erase victim).Nonempty := by
          rw [Finset.nonempty_iff_ne_empty, ne_eq, Finset.erase_eq_empty_iff, not_or]
          exact ⟨Finset.ne_empty_of_mem hon, hother⟩
        have hanchor := (hkeeps hne).1.anchor
        exact absurd heq.symm (Finset.mem_erase.mp hanchor).1
    | _ => trivial
  · intro hspare
    obtain ⟨r, hrun, hring', hreturned⟩ := hring.after hpre hon hspare
    exact ⟨s', r, rfl, hrun, fun hne => ⟨hring'.sound hne, fun victim hcall =>
      hreturned victim hcall hne⟩⟩

theorem SessionInv.session {s : Option Session} {call : Call} (h : SessionInv s)
    (hallowed : call.Allowed s) (hspare : call.SparesAnchor s) : SessionInv (session s call) := by
  obtain ⟨s', rings, rfl, hring⟩ := h
  obtain ⟨hpre, hon⟩ := hallowed s' rfl
  obtain ⟨r, hrun, hring', -⟩ := hring.after hpre hon hspare
  refine ⟨s'.after call r.1, _, ?_, hring'⟩
  rw [Commits.session, Option.bind_some, hrun, Option.map_some]

/-- The session that starts with `new_history`. -/
def startSession (r : Heap × History) : Session :=
  { heap := r.1, history := r.2, commits := {r.2.commitList} }

theorem ring_startSession {h : Heap} {rings : Set (Cycle Addr)} (hrep : h.Represents rings)
    {malloc c name first : Addr} {r : Heap × History} (hfresh : c ∉ h.live)
    (hrun : newHistory h malloc c name first = some r) :
    ∃ rings', (startSession r).Ring rings' := by
  unfold newHistory at hrun
  split at hrun
  · contradiction
  obtain ⟨⟨h', c'⟩, hnew, rfl⟩ := Option.map_eq_some_iff.mp hrun
  have hnull : c ≠ null := by
    rintro rfl
    rw [newCommit, if_pos rfl] at hnew
    contradiction
  have hpre : (Call.newCommit c 0 0 first).Pre h := ⟨hnull, hfresh⟩
  obtain ⟨h₁, a, hrun₁, hrep₁⟩ := run_represents hrep hpre
  obtain ⟨h₂, hrun₂, -⟩ := newCommit_spec (h := h) hnull 0 0 first
  have hc' : c' = c := (Prod.mk.inj (Option.some.inj (hnew.symm.trans hrun₂))).2
  obtain ⟨rfl, -⟩ := Prod.mk.inj (Option.some.inj (hnew.symm.trans hrun₁))
  refine ⟨_, hrep₁, fun _ => ⟨_, Set.mem_insert _ _, ?_, fun a => ?_⟩⟩
  · simp [startSession, hc']
  · simp [startSession, hc']

/-- **The pointer of a history stays good exactly while `del_commit` spares the commit it points
to.** -/
theorem keeps_iff_sparesAnchor {before calls : List Call} {h : Heap} {malloc c name first : Addr}
    {r : Heap × History} (hbefore : Admissible {} before) (hheap : runCalls {} before = some h)
    (hfresh : c ∉ h.live) (hnew : newHistory h malloc c name first = some r)
    (hcalls : StepsMeet session (fun s call => call.Allowed s) (some (startSession r)) calls) :
    (startSession r).Sound
      ∧ (StepsMeet session (fun s call => call.Keeps s) (some (startSession r)) calls
        ↔ StepsMeet session (fun s call => call.SparesAnchor s) (some (startSession r)) calls) := by
  obtain ⟨h', hheap', hrep⟩ := runCalls_represents represents_empty hbefore
  obtain rfl := Option.some.inj (hheap.symm.trans hheap')
  obtain ⟨rings, hring⟩ := ring_startSession hrep hfresh hnew
  have hinit : SessionInv (some (startSession r)) := ⟨_, rings, rfl, hring⟩
  refine ⟨hring.sound (Finset.singleton_nonempty _), ?_⟩
  exact stepsMeet_iff (fun s call hs hallowed => hs.keeps_iff hallowed)
    (fun s call hs hallowed hspare => hs.session hallowed hspare) hinit hcalls

def newRepository : Heap × History :=
  ((newCommit {} 16 0 0 2).elim {} Prod.fst, { commitCount := 0, commitList := 16, name := 1 })

def deleteSecond : List Call :=
  [.addMinorCommit 32 16 3, .addMajorCommit 48 32 4, .delCommit 32]

theorem keeps_iff_sparesAnchor_deleteSecond :
    (startSession newRepository).Sound
      ∧ (StepsMeet session (fun s call => call.Keeps s) (some (startSession newRepository))
          deleteSecond
        ↔ StepsMeet session (fun s call => call.SparesAnchor s)
          (some (startSession newRepository)) deleteSecond) := by
  have hbefore : Admissible {} [] := trivial
  have hnew : newHistory {} 8 16 1 2 = some newRepository := rfl
  exact keeps_iff_sparesAnchor hbefore rfl (by decide) hnew (by decide)

def deleteFirst : List Call := [.addMinorCommit 32 16 3, .delCommit 16]

/-- `commit_list` is left pointing to the freed commit, with one live. -/
theorem not_keeps_deleteFirst :
    newHistory {} 8 16 1 2 = some newRepository
      ∧ StepsMeet session (fun s call => call.Allowed s) (some (startSession newRepository))
        deleteFirst
      ∧ ¬ StepsMeet session (fun s call => call.Keeps s) (some (startSession newRepository))
        deleteFirst := by
  refine ⟨rfl, by decide, ?_⟩
  rintro ⟨-, ⟨s, r, hs, -, hkeeps⟩, -⟩
  have hcommits : s.commits = {32, 16} := by
    have hrun : (session (some (startSession newRepository)) (.addMinorCommit 32 16 3)).map
        Session.commits = some {32, 16} := rfl
    rw [hs] at hrun
    exact Option.some.inj hrun
  have hanchor : s.history.commitList = 16 := by
    have hrun : (session (some (startSession newRepository)) (.addMinorCommit 32 16 3)).map
        (fun s => s.history.commitList) = some 16 := rfl
    rw [hs] at hrun
    exact Option.some.inj hrun
  have hleft : (s.after (.delCommit 16) r.1).commits = {32} := by
    calc s.commits.erase 16
      _ = ({32, 16} : Finset Addr).erase 16 := by rw [hcommits]
      _ = {32} := by decide
  have hsound := (hkeeps (hleft ▸ Finset.singleton_nonempty 32)).1
  have hmem := hsound.anchor
  rw [hleft, Session.after, hanchor] at hmem
  exact absurd hmem (by decide)

end Pnl.Commits
