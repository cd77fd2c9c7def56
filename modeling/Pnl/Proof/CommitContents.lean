import Mathlib.Data.Set.Function
import Pnl.Proof.CommitVersions

/-!
# What a history says

Without their links the commits are a table from addresses to contents, and the number of commits
created so far. The calls of `commit.c` write to the table what their names say, and nothing else in
the table changes: a commit keeps its number and its comment for life, and its version until a commit
is added after it. The numbers come from an `int`, so two live commits could only share one after
2^32 creations.
-/

namespace Pnl.Commits

structure Contents where
  content : Addr → Option Content := fun _ => none
  created : Nat := 0

/-- The number of the `k`-th commit created, an `int` kept in an `unsigned long`. -/
def commitId (k : Nat) : UInt64 := (Int32.ofNat k).toInt64.toUInt64

def Contents.bump (s : Contents) (from_ : Addr) (bump : Version → Version) : Contents :=
  let bumped := (s.content from_).map fun c => { c with version := bump c.version }
  { s with content := Function.update s.content from_ bumped }

def Contents.version (s : Contents) (a : Addr) : Version :=
  ((s.content a).map Content.version).getD { minor := 0, major := 0 }

def Contents.create (s : Contents) (a : Addr) (version : Version) (comment : Addr) : Contents where
  content := Function.update s.content a
    (some { id := commitId (s.created + 1), version := version, comment := comment })
  created := s.created + 1

theorem content_create (s : Contents) (a : Addr) (version : Version) (comment b : Addr) :
    (s.create a version comment).content b =
      if b = a then some { id := commitId (s.created + 1), version := version, comment := comment }
      else s.content b :=
  Function.update_apply s.content a _ b

def Call.contentsAfter (s : Contents) : Call → Contents
  | .newCommit a major minor comment => s.create a { major := major, minor := minor } comment
  | .addMinorCommit a from_ comment =>
      let s := s.bump from_ Version.bumpMinor
      s.create a (s.version from_) comment
  | .addMajorCommit a from_ comment =>
      let s := s.bump from_ Version.bumpMajor
      s.create a { s.version from_ with minor := 0 } comment
  | .delCommit victim => { s with content := Function.update s.content victim none }

/-- The heap holds the contents `s`, and its `nextId` has counted what was created. -/
structure Heap.Holds (h : Heap) (s : Contents) : Prop where
  content : h.content = s.content
  nextId : h.nextId = Int32.ofNat s.created

/-! ### One call -/

theorem mem_live_iff_content {h : Heap} {a : Addr} : a ∈ h.live ↔ ∃ c, h.content a = some c := by
  rw [← Option.isSome_iff_exists, Heap.content, Option.isSome_map]
  rfl

section Step

variable {h : Heap} {s : Contents} (hs : h.Holds s)

include hs

theorem Heap.Holds.write_links {h' : Heap} {a : Addr} {f : Commit → Commit}
    (hrun : h.write a f = some h') (hf : ∀ c, (f c).content = c.content) : h'.Holds s := by
  refine ⟨(content_write hrun hf).trans hs.content, ?_⟩
  obtain ⟨c, -, rfl⟩ := Option.map_eq_some_iff.mp hrun
  exact hs.nextId

theorem Heap.Holds.write_version {h' : Heap} {a : Addr} {bump : Version → Version}
    (hrun : h.write a (fun c => { c with version := bump c.version }) = some h') :
    h'.Holds (s.bump a bump) := by
  obtain ⟨c, hc, rfl⟩ := Option.map_eq_some_iff.mp hrun
  refine ⟨?_, hs.nextId⟩
  rw [Contents.bump, ← hs.content]
  funext b
  by_cases hb : b = a
  · subst hb
    simp [Heap.content, hc, Commit.content]
  · simp [Heap.content, hb]

theorem Heap.Holds.newCommit {a comment : Addr} {major : UInt16} {minor : UInt64} {r : Heap × Addr}
    (hrun : Commits.newCommit h a major minor comment = some r) :
    r.2 = a ∧ r.1.Holds (s.create a { major := major, minor := minor } comment) := by
  rw [Commits.newCommit] at hrun
  split_ifs at hrun
  obtain rfl := Option.some.inj hrun
  have hid : h.nextId + 1 = Int32.ofNat (s.created + 1) := by rw [hs.nextId, Int32.ofNat_add]; rfl
  refine ⟨rfl, ?_, hid⟩
  rw [Contents.create, ← hs.content]
  funext b
  by_cases hb : b = a
  · subst hb
    simp [Heap.content, Commit.content, commitId, hid]
  · simp [Heap.content, hb]

theorem Heap.Holds.insertCommit {from_ new : Addr} {r : Heap × Addr}
    (hrun : Commits.insertCommit h from_ new = some r) : r.1.Holds s := by
  simp only [Commits.insertCommit, Option.bind_eq_bind, Option.bind_eq_some_iff] at hrun
  obtain ⟨c, -, h₁, hrun₁, h₂, hrun₂, h₃, hrun₃, h₄, hrun₄, heq⟩ := hrun
  obtain rfl : (h₄, new) = r := Option.some.inj heq
  have hs₁ := hs.write_links hrun₁ fun _ => rfl
  have hs₂ := hs₁.write_links hrun₂ fun _ => rfl
  have hs₃ := hs₂.write_links hrun₃ fun _ => rfl
  exact hs₃.write_links hrun₄ fun _ => rfl

theorem Heap.Holds.addCommit {bump new : Version → Version} {malloc from_ comment : Addr}
    {r : Heap × Addr} (hrun : Commits.addCommit bump new h malloc from_ comment = some r) :
    r.1.Holds ((s.bump from_ bump).create malloc (new ((s.bump from_ bump).version from_))
      comment) := by
  simp only [Commits.addCommit, Option.bind_eq_bind, Option.bind_eq_some_iff] at hrun
  obtain ⟨h₁, hrun₁, c, hc, ⟨h₂, a⟩, hrun₂, hrun₃⟩ := hrun
  have hs₁ := hs.write_version hrun₁
  have hversion : (s.bump from_ bump).version from_ = c.version := by
    rw [Contents.version, ← hs₁.content, Heap.content, hc]
    rfl
  obtain ⟨ha, hs₂⟩ := hs₁.newCommit hrun₂
  rw [hversion]
  exact hs₂.insertCommit hrun₃

theorem Heap.Holds.delCommit {victim : Addr} {r : Heap × Addr}
    (hrun : Commits.delCommit h victim = some r) :
    r.1.Holds { s with content := Function.update s.content victim none } := by
  simp only [Commits.delCommit, Option.bind_eq_bind, Option.bind_eq_some_iff] at hrun
  obtain ⟨v, -, h₁, hrun₁, h₂, hrun₂, h₃, hrun₃, h₄, hrun₄, heq⟩ := hrun
  obtain rfl := Option.some.inj heq
  have hs₁ := hs.write_links hrun₁ fun _ => rfl
  have hs₂ := hs₁.write_links hrun₂ fun _ => rfl
  have hs₃ := hs₂.write_links hrun₃ fun _ => rfl
  have hs₄ := hs₃.write_links hrun₄ fun _ => rfl
  refine ⟨?_, hs₄.nextId⟩
  rw [← hs₄.content]
  funext b
  by_cases hb : b = victim
  · subst hb
    simp [Heap.content]
  · simp [Heap.content, hb]

/-- **A call writes to the table what its name says.** -/
theorem Heap.Holds.run {call : Call} {r : Heap × Addr} (hrun : call.run h = some r) :
    r.1.Holds (call.contentsAfter s) := by
  cases call with
  | newCommit malloc major minor comment => exact (hs.newCommit hrun).2
  | addMinorCommit malloc from_ comment =>
      rw [Call.run, addMinorCommit_eq] at hrun
      exact hs.addCommit hrun
  | addMajorCommit malloc from_ comment =>
      rw [Call.run, addMajorCommit_eq] at hrun
      exact hs.addCommit hrun
  | delCommit victim => exact hs.delCommit hrun

theorem Heap.Holds.runCalls {calls : List Call} {h' : Heap}
    (hrun : Commits.runCalls h calls = some h') : h'.Holds (calls.foldl Call.contentsAfter s) := by
  induction calls generalizing h s with
  | nil => exact Option.some.inj hrun ▸ hs
  | cons call calls ih =>
      rw [Commits.runCalls, Option.bind_eq_bind, Option.bind_eq_some_iff] at hrun
      obtain ⟨r, hcall, hrest⟩ := hrun
      exact ih (hs.run hcall) hrest

end Step

/-! ### Numbers -/

theorem commitId_inj {k k' : Nat} (h : commitId k = commitId k') : k % 2 ^ 32 = k' % 2 ^ 32 := by
  have hlong : (Int32.ofNat k).toInt64 = (Int32.ofNat k').toInt64 := by
    simpa [commitId] using congrArg UInt64.toInt64 h
  have hint : Int32.ofNat k = Int32.ofNat k' := by
    apply Int32.toInt_inj.mp
    rw [← Int32.toInt_toInt64, hlong, Int32.toInt_toInt64]
  have hnat := congrArg (fun n : Int32 => n.toUInt32.toNat) hint
  exact hnat

/-- Each commit in the table has the number of its creation, and no other has it. -/
def Contents.Numbered (s : Contents) : Prop :=
  ∃ number : Addr → Nat,
    (∀ a c, s.content a = some c →
      1 ≤ number a ∧ number a ≤ s.created ∧ c.id = commitId (number a))
    ∧ ∀ a c b d, s.content a = some c → s.content b = some d → number a = number b → a = b

theorem numbered_empty : ({} : Contents).Numbered := by
  refine ⟨fun _ => 0, fun a c hc => ?_, fun a c b d hc => ?_⟩
  · contradiction
  · contradiction

section Numbered

variable {s : Contents} (hs : s.Numbered)

include hs

/-- A commit keeps its number, whatever else is written to it, and until it is deleted. -/
theorem Contents.Numbered.of_id {s' : Contents} (hcreated : s'.created = s.created)
    (hid : ∀ a c, s'.content a = some c → ∃ d, s.content a = some d ∧ c.id = d.id) :
    s'.Numbered := by
  obtain ⟨number, hnumber, hinj⟩ := hs
  refine ⟨number, fun a c hc => ?_, fun a c b d hc hd hab => ?_⟩
  · obtain ⟨c', hc', hsame⟩ := hid a c hc
    rw [hcreated, hsame]
    exact hnumber a c' hc'
  · obtain ⟨c', hc', -⟩ := hid a c hc
    obtain ⟨d', hd', -⟩ := hid b d hd
    exact hinj a c' b d' hc' hd' hab

theorem Contents.Numbered.bump (from_ : Addr) (bump : Version → Version) :
    (s.bump from_ bump).Numbered := by
  refine hs.of_id rfl fun a c hc => ?_
  simp only [Contents.bump, Function.update_apply] at hc
  split_ifs at hc with ha
  · obtain ⟨d, hd, rfl⟩ := Option.map_eq_some_iff.mp hc
    exact ⟨d, ha ▸ hd, rfl⟩
  · exact ⟨c, hc, rfl⟩

theorem Contents.Numbered.create (a : Addr) (version : Version) (comment : Addr) :
    (s.create a version comment).Numbered := by
  obtain ⟨number, hnumber, hinj⟩ := hs
  have hold {b : Addr} {c : Content} (hb : b ≠ a)
      (hc : (s.create a version comment).content b = some c) : s.content b = some c := by
    rwa [content_create, if_neg hb] at hc
  refine ⟨Function.update number a (s.created + 1), fun b c hc => ?_, fun b c b' d hc hd hsame => ?_⟩
  · by_cases hb : b = a
    · subst hb
      rw [content_create, if_pos rfl, Option.some.injEq] at hc
      rw [← hc, Function.update_self]
      exact ⟨Nat.le_add_left 1 s.created, Nat.le_refl _, rfl⟩
    · obtain ⟨hpos, hle, hid⟩ := hnumber b c (hold hb hc)
      rw [Function.update_of_ne hb]
      exact ⟨hpos, Nat.le_succ_of_le hle, hid⟩
  · simp only [Function.update_apply] at hsame
    split_ifs at hsame with hb hb' hb'
    · rw [hb, hb']
    · have hle := (hnumber b' d (hold hb' hd)).2.1
      omega
    · have hle := (hnumber b c (hold hb hc)).2.1
      omega
    · exact hinj b c b' d (hold hb hc) (hold hb' hd) hsame

theorem Contents.Numbered.contentsAfter (call : Call) : (call.contentsAfter s).Numbered := by
  cases call with
  | newCommit a major minor comment => exact hs.create a _ comment
  | addMinorCommit a from_ comment => exact (hs.bump from_ _).create a _ comment
  | addMajorCommit a from_ comment => exact (hs.bump from_ _).create a _ comment
  | delCommit victim =>
      refine hs.of_id rfl fun a c hc => ?_
      simp only [Call.contentsAfter, Function.update_apply] at hc
      split_ifs at hc
      exact ⟨c, hc, rfl⟩

theorem Contents.Numbered.foldl (calls : List Call) :
    (calls.foldl Call.contentsAfter s).Numbered := by
  induction calls generalizing s with
  | nil => exact hs
  | cons call calls ih => exact ih (hs.contentsAfter call)

theorem Contents.Numbered.eq_of_id (hfew : s.created ≤ 2 ^ 32) {a b : Addr} {c d : Content}
    (hc : s.content a = some c) (hd : s.content b = some d) (hid : c.id = d.id) : a = b := by
  obtain ⟨number, hnumber, hinj⟩ := hs
  obtain ⟨hpos, hle, hida⟩ := hnumber a c hc
  obtain ⟨hpos', hle', hidb⟩ := hnumber b d hd
  apply hinj a c b d hc hd
  have hmod := commitId_inj (hida.symm.trans (hid.trans hidb))
  omega

end Numbered

theorem holds_empty : ({} : Heap).Holds {} := ⟨rfl, rfl⟩

/-- **What a history says after any run.** Every commit holds what the calls wrote to the table, and
no two of them share a number as long as 2^32 were not created. -/
theorem runCalls_contents {calls : List Call} (hcalls : Admissible {} calls) :
    ∃ h, runCalls {} calls = some h
      ∧ h.content = (calls.foldl Call.contentsAfter {}).content
      ∧ ((calls.foldl Call.contentsAfter {}).created ≤ 2 ^ 32 →
        ∀ a c b d, h.content a = some c → h.content b = some d → c.id = d.id → a = b) := by
  obtain ⟨h, hrun, -⟩ := runCalls_represents represents_empty hcalls
  have hholds := holds_empty.runCalls hrun
  have hnumbered := numbered_empty.foldl calls
  refine ⟨h, hrun, hholds.content, fun hfew a c b d hc hd hid => ?_⟩
  rw [hholds.content] at hc hd
  exact hnumbered.eq_of_id hfew hc hd hid

/-- Two branches from one commit, which is then deleted and its block used again. -/
def branches : List Call :=
  [.newCommit 16 0 0 null, .addMinorCommit 32 16 null, .addMajorCommit 48 16 null, .delCommit 16,
    .addMinorCommit 16 48 null]

theorem runCalls_contents_branches :
    ∃ h, runCalls {} branches = some h
      ∧ h.content = (branches.foldl Call.contentsAfter {}).content
      ∧ ((branches.foldl Call.contentsAfter {}).created ≤ 2 ^ 32 →
        ∀ a c b d, h.content a = some c → h.content b = some d → c.id = d.id → a = b) := by
  have hcalls : Admissible {} branches := by decide
  exact runCalls_contents hcalls

end Pnl.Commits
