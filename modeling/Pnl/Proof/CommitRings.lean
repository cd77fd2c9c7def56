import Pnl.Commit
import Pnl.Lib.Rings

/-!
# Commit rings are sequences

The heap is related to the set of its rings: the live commits are those of the rings, and `next` and
`prev` lead around them. Each call of `commit.c` then has the effect of one operation on rings, and
no call touches a commit that is not live, whatever the neighbours of its argument are.
-/

namespace Pnl.Commits

open Rings

/-- The pointers of the heap lead around `rings`. -/
def Heap.Represents (h : Heap) (rings : Set (Cycle Addr)) : Prop :=
  Partition h.next h.prev h.live rings

def Call.ringsAfter (rings : Set (Cycle Addr)) : Call → Set (Cycle Addr)
  | .newCommit c _ _ _ => insert (([c] : List Addr) : Cycle Addr) rings
  | .addMinorCommit new from_ _ => insertAfter rings from_ new
  | .addMajorCommit new from_ _ => insertAfter rings from_ new
  | .delCommit victim => remove rings victim

/-! ### Assignments -/

section Write

variable {h : Heap} {a : Addr} (ha : a ∈ h.live)

include ha

theorem write_spec (f : Commit → Commit) :
    ∃ h', h.write a f = some h' ∧ h'.live = h.live
      ∧ ∀ b, h'.block b = if b = a then (h.block a).map f else h.block b := by
  obtain ⟨c, hc⟩ := Option.isSome_iff_exists.mp ha
  refine ⟨{ h with block := Function.update h.block a (some (f c)) }, by simp [Heap.write, hc],
    ?_, ?_⟩
  · ext b
    by_cases hb : b = a
    · subst hb
      simp [Heap.live, hc]
    · simp [Heap.live, hb]
  · intro b
    simp [Function.update_apply, hc]

theorem write_links {f : Commit → Commit} (hf : ∀ c, (f c).next = c.next ∧ (f c).prev = c.prev) :
    ∃ h', h.write a f = some h' ∧ h'.live = h.live ∧ h'.next = h.next ∧ h'.prev = h.prev := by
  obtain ⟨c, hc⟩ := Option.isSome_iff_exists.mp ha
  obtain ⟨h', hrun, hlive, hblock⟩ := write_spec ha f
  refine ⟨h', hrun, hlive, ?_, ?_⟩ <;>
  · funext b
    by_cases hb : b = a <;> simp [Heap.next, Heap.prev, hblock, hb, hc, hf]

theorem write_next (n : Addr) :
    ∃ h', h.write a (fun c => { c with next := n }) = some h' ∧ h'.live = h.live
      ∧ (∀ b, h'.next b = if b = a then n else h.next b) ∧ h'.prev = h.prev := by
  obtain ⟨c, hc⟩ := Option.isSome_iff_exists.mp ha
  obtain ⟨h', hrun, hlive, hblock⟩ := write_spec ha fun c => { c with next := n }
  refine ⟨h', hrun, hlive, fun b => ?_, ?_⟩
  · by_cases hb : b = a <;> simp [Heap.next, hblock, hb, hc]
  · funext b
    by_cases hb : b = a <;> simp [Heap.prev, hblock, hb, hc]

theorem write_prev (p : Addr) :
    ∃ h', h.write a (fun c => { c with prev := p }) = some h' ∧ h'.live = h.live
      ∧ h'.next = h.next ∧ ∀ b, h'.prev b = if b = a then p else h.prev b := by
  obtain ⟨c, hc⟩ := Option.isSome_iff_exists.mp ha
  obtain ⟨h', hrun, hlive, hblock⟩ := write_spec ha fun c => { c with prev := p }
  refine ⟨h', hrun, hlive, ?_, fun b => ?_⟩
  · funext b
    by_cases hb : b = a <;> simp [Heap.next, hblock, hb, hc]
  · by_cases hb : b = a <;> simp [Heap.prev, hblock, hb, hc]

end Write

/-! ### One call -/

theorem newCommit_spec {h : Heap} {c : Addr} (hnull : c ≠ null) (major : UInt16) (minor : UInt64)
    (comment : Addr) :
    ∃ h', newCommit h c major minor comment = some (h', c) ∧ h'.live = insert c h.live
      ∧ (∀ b, h'.next b = if b = c then c else h.next b)
      ∧ ∀ b, h'.prev b = if b = c then c else h.prev b := by
  refine ⟨_, by rw [newCommit, if_neg hnull], ?_, fun b => ?_, fun b => ?_⟩
  · ext b
    by_cases hb : b = c <;> simp [Heap.live, hb]
  · by_cases hb : b = c <;> simp [Heap.next, hb]
  · by_cases hb : b = c <;> simp [Heap.prev, hb]

/-- The four assignments, whichever of the commits involved are the same. -/
theorem insertCommit_spec {h : Heap} {from_ new : Addr} (hfrom : from_ ∈ h.live)
    (hfirst : h.next from_ ∈ h.live) (hnew : new ∈ h.live) :
    ∃ h', insertCommit h from_ new = some (h', new) ∧ h'.live = h.live
      ∧ (∀ b, h'.next b = if b = from_ then new else if b = new then h.next from_ else h.next b)
      ∧ ∀ b, h'.prev b = if b = new then from_ else if b = h.next from_ then new else h.prev b := by
  obtain ⟨c, hc⟩ := Option.isSome_iff_exists.mp hfrom
  have hnext : h.next from_ = c.next := by simp [Heap.next, hc]
  rw [hnext] at hfirst
  obtain ⟨h₁, hrun₁, hlive₁, hnext₁, hprev₁⟩ := write_prev hfirst new
  obtain ⟨h₂, hrun₂, hlive₂, hnext₂, hprev₂⟩ := write_next (hlive₁ ▸ hnew) c.next
  obtain ⟨h₃, hrun₃, hlive₃, hnext₃, hprev₃⟩ := write_next (hlive₂ ▸ hlive₁ ▸ hfrom) new
  obtain ⟨h₄, hrun₄, hlive₄, hnext₄, hprev₄⟩ :=
    write_prev (hlive₃ ▸ hlive₂ ▸ hlive₁ ▸ hnew) from_
  refine ⟨h₄, by simp [insertCommit, hc, hrun₁, hrun₂, hrun₃, hrun₄], ?_, fun b => ?_, fun b => ?_⟩
  · rw [hlive₄, hlive₃, hlive₂, hlive₁]
  · rw [hnext₄, hnext₃, hnext₂, hnext₁, hnext]
  · rw [hprev₄, hprev₃, hprev₂, hprev₁, hnext]

theorem delCommit_spec {h : Heap} {victim : Addr} (hvictim : victim ∈ h.live)
    (hprev : h.prev victim ∈ h.live) (hnext : h.next victim ∈ h.live) :
    ∃ h', delCommit h victim = some (h', h.prev victim) ∧ h'.live = h.live \ {victim}
      ∧ (∀ b, b ≠ victim → h'.next b = if b = h.prev victim then h.next victim else h.next b)
      ∧ ∀ b, b ≠ victim → h'.prev b = if b = h.next victim then h.prev victim else h.prev b := by
  obtain ⟨v, hv⟩ := Option.isSome_iff_exists.mp hvictim
  have hp : h.prev victim = v.prev := by simp [Heap.prev, hv]
  have hn : h.next victim = v.next := by simp [Heap.next, hv]
  rw [hp] at hprev
  rw [hn] at hnext
  obtain ⟨h₁, hrun₁, hlive₁, hnext₁, hprev₁⟩ := write_next hprev v.next
  obtain ⟨h₂, hrun₂, hlive₂, hnext₂, hprev₂⟩ := write_prev (hlive₁ ▸ hnext) v.prev
  obtain ⟨h₃, hrun₃, hlive₃, hnext₃, hprev₃⟩ := write_prev (hlive₂ ▸ hlive₁ ▸ hvictim) null
  obtain ⟨h₄, hrun₄, hlive₄, hnext₄, hprev₄⟩ :=
    write_next (hlive₃ ▸ hlive₂ ▸ hlive₁ ▸ hvictim) null
  refine ⟨{ h₄ with block := Function.update h₄.block victim none }, ?_, ?_, ?_, ?_⟩
  · simp [delCommit, hv, hrun₁, hrun₂, hrun₃, hrun₄, hp]
  · rw [← hlive₁, ← hlive₂, ← hlive₃, ← hlive₄]
    ext b
    by_cases hb : b = victim <;> simp [Heap.live, hb]
  · intro b hb
    have hfreed : Heap.next { h₄ with block := Function.update h₄.block victim none } b
        = h₄.next b := by
      simp [Heap.next, hb]
    rw [hfreed, hnext₄, if_neg hb, hnext₃, hnext₂, hnext₁, hp, hn]
  · intro b hb
    have hfreed : Heap.prev { h₄ with block := Function.update h₄.block victim none } b
        = h₄.prev b := by
      simp [Heap.prev, hb]
    rw [hfreed, hprev₄, hprev₃, if_neg hb, hprev₂, hprev₁, hp, hn]

section Step

variable {h : Heap} {rings : Set (Cycle Addr)} (hrep : h.Represents rings)

include hrep

theorem insert_represents {from_ new : Addr} (hfrom : from_ ∈ h.live) (hfresh : new ∉ h.live)
    (hnull : new ≠ null) (major : UInt16) (minor : UInt64) (comment : Addr) :
    ∃ h₁ h', newCommit h new major minor comment = some (h₁, new)
      ∧ insertCommit h₁ from_ new = some (h', new)
      ∧ h'.Represents (insertAfter rings from_ new) := by
  obtain ⟨h₁, hrun₁, hlive₁, hnext₁, hprev₁⟩ := newCommit_spec (h := h) hnull major minor comment
  have hne : from_ ≠ new := fun heq => hfresh (heq ▸ hfrom)
  have hsame : h₁.next from_ = h.next from_ := by rw [hnext₁, if_neg hne]
  have hfirst : h.next from_ ∈ h.live := (hrep.inverse hfrom).1
  have hfrom₁ : from_ ∈ h₁.live := by
    rw [hlive₁]
    exact Or.inr hfrom
  have hfirst₁ : h₁.next from_ ∈ h₁.live := by
    rw [hlive₁, hsame]
    exact Or.inr hfirst
  have hnew₁ : new ∈ h₁.live := by
    rw [hlive₁]
    exact Or.inl rfl
  obtain ⟨h', hrun, hlive, hnext, hprev⟩ := insertCommit_spec hfrom₁ hfirst₁ hnew₁
  rw [hsame] at hnext hprev
  have hnew : ∀ x ∈ h.live, x ≠ new := fun x hx heq => hfresh (heq ▸ hx)
  refine ⟨h₁, h', hrun₁, hrun, ?_⟩
  rw [Heap.Represents, hlive, hlive₁]
  apply hrep.insertAfter hfrom hfresh
  · rw [hnext, if_pos rfl]
  · rw [hnext, if_neg hne.symm, if_pos rfl]
  · intro x hx hxa
    rw [hnext, if_neg hxa, if_neg (hnew x hx), hnext₁, if_neg (hnew x hx)]
  · rw [hprev, if_pos rfl]
  · rw [hprev, if_neg (hnew _ hfirst), if_pos rfl]
  · intro x hx hxa
    rw [hprev, if_neg (hnew x hx), if_neg hxa, hprev₁, if_neg (hnew x hx)]

/-- A new commit behind one whose version was counted up before, in one of its parts. -/
theorem bump_represents {from_ new : Addr} (hfrom : from_ ∈ h.live) (hfresh : new ∉ h.live)
    (hnull : new ≠ null) (comment : Addr) {f : Commit → Commit}
    (hf : ∀ c, (f c).next = c.next ∧ (f c).prev = c.prev) :
    ∃ h₁ c, h.write from_ f = some h₁ ∧ h₁.block from_ = some c ∧
      ∀ major minor, ∃ h₂ h', newCommit h₁ new major minor comment = some (h₂, new)
        ∧ insertCommit h₂ from_ new = some (h', new)
        ∧ h'.Represents (insertAfter rings from_ new) := by
  obtain ⟨h₁, hwrite, hlive, hnext, hprev⟩ := write_links hfrom hf
  rw [Heap.Represents, ← hnext, ← hprev, ← hlive] at hrep
  rw [← hlive] at hfresh hfrom
  obtain ⟨c, hc⟩ := Option.isSome_iff_exists.mp hfrom
  refine ⟨h₁, c, hwrite, hc, fun major minor => ?_⟩
  exact insert_represents hrep hfrom hfresh hnull major minor comment

theorem run_represents {call : Call} (hpre : call.Pre h) :
    ∃ h' a, call.run h = some (h', a) ∧ h'.Represents (call.ringsAfter rings) := by
  cases call with
  | newCommit malloc major minor comment =>
      obtain ⟨hnull, hfresh⟩ := hpre
      obtain ⟨h', hrun, hlive, hnext, hprev⟩ :=
        newCommit_spec (h := h) hnull major minor comment
      refine ⟨h', malloc, hrun, ?_⟩
      rw [Heap.Represents, hlive]
      have hnew : ∀ x ∈ h.live, x ≠ malloc := fun x hx heq => hfresh (heq ▸ hx)
      apply hrep.single hfresh
      · rw [hnext, if_pos rfl]
      · rw [hprev, if_pos rfl]
      · intro x hx
        rw [hnext, if_neg (hnew x hx), hprev, if_neg (hnew x hx)]
        exact ⟨rfl, rfl⟩
  | addMinorCommit malloc from_ comment =>
      obtain ⟨hnull, hfresh, hfrom⟩ := hpre
      obtain ⟨h₁, c, hwrite, hc, hinsert⟩ := bump_represents hrep hfrom hfresh hnull comment
        (f := fun c => { c with version.minor := c.version.minor + 1 }) fun _ => ⟨rfl, rfl⟩
      obtain ⟨h₂, h', hrun₂, hrun, hafter⟩ := hinsert c.version.major c.version.minor
      exact ⟨h', malloc, by simp [Call.run, addMinorCommit, hwrite, hc, hrun₂, hrun], hafter⟩
  | addMajorCommit malloc from_ comment =>
      obtain ⟨hnull, hfresh, hfrom⟩ := hpre
      obtain ⟨h₁, c, hwrite, hc, hinsert⟩ := bump_represents hrep hfrom hfresh hnull comment
        (f := fun c => { c with version.major := c.version.major + 1 }) fun _ => ⟨rfl, rfl⟩
      obtain ⟨h₂, h', hrun₂, hrun, hafter⟩ := hinsert c.version.major 0
      exact ⟨h', malloc, by simp [Call.run, addMajorCommit, hwrite, hc, hrun₂, hrun], hafter⟩
  | delCommit victim =>
      have hvictim : victim ∈ h.live := hpre
      obtain ⟨hnextLive, hprevLive, hback, hforth⟩ := hrep.inverse hvictim
      obtain ⟨h', hrun, hlive, hnext, hprev⟩ := delCommit_spec hvictim hprevLive hnextLive
      refine ⟨h', _, hrun, ?_⟩
      rw [Heap.Represents, hlive]
      apply hrep.remove hvictim
      · intro hne
        rw [hnext _ hne, if_pos rfl]
      · intro x _ hx hxp
        rw [hnext x hx, if_neg hxp]
      · intro hne
        rw [hprev _ hne, if_pos rfl]
      · intro x _ hx hxn
        rw [hprev x hx, if_neg hxn]

end Step

/-! ### Runs -/

theorem admissible_take {h : Heap} {calls : List Call} (hcalls : Admissible h calls) (n : Nat) :
    Admissible h (calls.take n) := by
  induction calls generalizing h n with
  | nil => simpa using hcalls
  | cons call calls ih =>
      cases n with
      | zero => trivial
      | succ n => exact ⟨hcalls.1, fun r hrun => ih (hcalls.2 r hrun) n⟩

theorem runCalls_represents {h : Heap} {rings : Set (Cycle Addr)} (hrep : h.Represents rings)
    {calls : List Call} (hcalls : Admissible h calls) :
    ∃ h', runCalls h calls = some h' ∧ h'.Represents (calls.foldl Call.ringsAfter rings) := by
  induction calls generalizing h rings with
  | nil => exact ⟨h, rfl, hrep⟩
  | cons call calls ih =>
      obtain ⟨h₁, a, hrun, hrep₁⟩ := run_represents hrep hcalls.1
      obtain ⟨h', hruns, hrep'⟩ := ih hrep₁ (hcalls.2 (h₁, a) hrun)
      exact ⟨h', by simp [runCalls, hrun, hruns], hrep'⟩

theorem represents_empty : ({} : Heap).Represents ∅ := by
  have hlive : ({} : Heap).live = ∅ := by
    ext a
    simp [Heap.live]
  rw [Heap.Represents, hlive]
  exact partition_empty

/-- **After each call of a run the live commits form rings, and the rings are those that inserting
after a commit and removing one give.** -/
theorem commits_form_rings {calls : List Call} (hcalls : Admissible {} calls) (n : Nat) :
    ∃ h, runCalls {} (calls.take n) = some h
      ∧ h.Represents ((calls.take n).foldl Call.ringsAfter ∅)
      ∧ ∀ c ∈ h.live, h.next c ∈ h.live ∧ h.prev c ∈ h.live
          ∧ h.prev (h.next c) = c ∧ h.next (h.prev c) = c := by
  obtain ⟨h, hrun, hrep⟩ := runCalls_represents represents_empty (admissible_take hcalls n)
  exact ⟨h, hrun, hrep, fun c hc => hrep.inverse hc⟩

def replaceFirst : List Call :=
  [.newCommit 16 0 0 null, .addMinorCommit 32 16 null, .delCommit 16]

theorem commits_form_rings_replaceFirst :
    ∃ h, runCalls {} (replaceFirst.take 3) = some h
      ∧ h.Represents ((replaceFirst.take 3).foldl Call.ringsAfter ∅)
      ∧ ∀ c ∈ h.live, h.next c ∈ h.live ∧ h.prev c ∈ h.live
          ∧ h.prev (h.next c) = c ∧ h.next (h.prev c) = c := by
  have hcalls : Admissible {} replaceFirst := by decide
  exact commits_form_rings hcalls 3

end Pnl.Commits
