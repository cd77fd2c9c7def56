import Pnl.Proof.CommitRings

/-!
# What adding a commit leaves alone

Both functions that add a commit compute its version with `++` on a field of the commit they add it
after. The commits that exist keep their content but for that one, and the links that change are the
two between which the new commit goes.
-/

namespace Pnl.Commits

/-- What a commit is about, without its links. -/
structure Content where
  id : UInt64
  version : Version
  comment : Addr
deriving DecidableEq, Repr

def Commit.content (c : Commit) : Content :=
  { id := c.id, version := c.version, comment := c.comment }

def Heap.content (h : Heap) (a : Addr) : Option Content := (h.block a).map Commit.content

/-- `r` is what a call gives that adds a commit of version `version` after `from_`, when the version
of `from_` is `fromVersion` afterwards. -/
structure Adds (h : Heap) (from_ : Addr) (version fromVersion : Version) (r : Heap × Addr) :
    Prop where
  fresh : r.2 ∉ h.live
  version : (r.1.content r.2).map Content.version = some version
  bumped : r.1.content from_ = (h.content from_).map fun c => { c with version := fromVersion }
  content : ∀ a ∈ h.live, a ≠ from_ → r.1.content a = h.content a
  next : ∀ a ∈ h.live, a ≠ from_ → r.1.next a = h.next a
  prev : ∀ a ∈ h.live, a ≠ h.next from_ → r.1.prev a = h.prev a

/-- Both functions: they change the version of `from_` by `bump`, and compute the new one from the
result. -/
def addCommit (bump new : Version → Version) (h : Heap) (malloc from_ comment : Addr) :
    Option (Heap × Addr) := do
  let h ← h.write from_ fun c => { c with version := bump c.version }
  let version := new (← h.block from_).version
  let (h, a) ← newCommit h malloc version.major version.minor comment
  insertCommit h from_ a

def Version.bumpMinor (v : Version) : Version := { v with minor := v.minor + 1 }

def Version.bumpMajor (v : Version) : Version := { v with major := v.major + 1 }

theorem addMinorCommit_eq : addMinorCommit = addCommit Version.bumpMinor id := rfl

theorem addMajorCommit_eq :
    addMajorCommit = addCommit Version.bumpMajor fun v => { v with minor := 0 } := rfl

/-! ### Contents -/

theorem content_write {h h' : Heap} {a : Addr} {f : Commit → Commit} (hrun : h.write a f = some h')
    (hf : ∀ c, (f c).content = c.content) : h'.content = h.content := by
  obtain ⟨c, hc, rfl⟩ := Option.map_eq_some_iff.mp hrun
  funext b
  by_cases hb : b = a
  · subst hb
    simp [Heap.content, hc, hf]
  · simp [Heap.content, hb]

theorem content_insertCommit {h : Heap} {from_ new : Addr} {r : Heap × Addr}
    (hrun : insertCommit h from_ new = some r) : r.1.content = h.content := by
  simp only [insertCommit, Option.bind_eq_bind, Option.bind_eq_some_iff] at hrun
  obtain ⟨c, -, h₁, hrun₁, h₂, hrun₂, h₃, hrun₃, h₄, hrun₄, heq⟩ := hrun
  obtain rfl : (h₄, new) = r := Option.some.inj heq
  calc
    h₄.content = h₃.content := content_write hrun₄ fun _ => rfl
    _ = h₂.content := content_write hrun₃ fun _ => rfl
    _ = h₁.content := content_write hrun₂ fun _ => rfl
    _ = h.content := content_write hrun₁ fun _ => rfl

theorem content_newCommit {h : Heap} {c comment : Addr} {major : UInt16} {minor : UInt64}
    {r : Heap × Addr} (hrun : newCommit h c major minor comment = some r) :
    (r.1.content c).map Content.version = some { major := major, minor := minor }
      ∧ ∀ a, a ≠ c → r.1.content a = h.content a := by
  rw [newCommit] at hrun
  split_ifs at hrun
  obtain rfl := Option.some.inj hrun
  constructor
  · simp [Heap.content, Commit.content]
  · intro a ha
    simp [Heap.content, ha]

/-- **What adding a commit does**, for a live commit with a live successor. -/
theorem addCommit_adds (bump new : Version → Version) {h : Heap} {malloc from_ : Addr} {c : Commit}
    (hnull : malloc ≠ null) (hfresh : malloc ∉ h.live) (hc : h.block from_ = some c)
    (hnext : h.next from_ ∈ h.live) (comment : Addr) :
    ∃ r, addCommit bump new h malloc from_ comment = some r
      ∧ Adds h from_ (new (bump c.version)) (bump c.version) r := by
  have hfrom : from_ ∈ h.live := Option.isSome_iff_exists.mpr ⟨c, hc⟩
  obtain ⟨h₁, hrun₁, hlive₁, hblock₁⟩ :=
    write_spec hfrom fun c => { c with version := bump c.version }
  obtain ⟨_, hrun₁', -, hnext₁, hprev₁⟩ := write_links hfrom
    (f := fun c => { c with version := bump c.version }) fun _ => ⟨rfl, rfl⟩
  obtain rfl := Option.some.inj (hrun₁.symm.trans hrun₁')
  have hne : from_ ≠ malloc := fun heq => hfresh (heq ▸ hfrom)
  have hc₁ : h₁.block from_ = some { c with version := bump c.version } := by
    rw [hblock₁, if_pos rfl, hc]
    rfl
  set version := new (bump c.version) with hversion
  obtain ⟨h₂, hrun₂, hlive₂, hnext₂, hprev₂⟩ :=
    newCommit_spec (h := h₁) hnull version.major version.minor comment
  obtain ⟨hnew, hold⟩ := content_newCommit hrun₂
  have hsub : ∀ a ∈ h.live, a ∈ h₂.live := fun a ha => by
    rw [hlive₂, hlive₁]
    exact Or.inr ha
  have hmalloc : malloc ∈ h₂.live := by
    rw [hlive₂]
    exact Or.inl rfl
  have hfirst : h₂.next from_ = h.next from_ := by rw [hnext₂, if_neg hne, hnext₁]
  obtain ⟨h₃, hrun₃, hlive₃, hnext₃, hprev₃⟩ :=
    insertCommit_spec (hsub from_ hfrom) (hfirst ▸ hsub _ hnext) hmalloc
  have hcontent : h₃.content = h₂.content := content_insertCommit hrun₃
  have hother : ∀ a ∈ h.live, a ≠ malloc := fun a ha heq => hfresh (heq ▸ ha)
  refine ⟨(h₃, malloc), ?_, ?_⟩
  · simp only [addCommit, hrun₁, hc₁, Option.bind_eq_bind, Option.bind_some, ← hversion, hrun₂, hrun₃]
  · constructor
    · exact hfresh
    · rw [hcontent]
      exact hnew
    · rw [hcontent, hold from_ hne, Heap.content, hc₁, Heap.content, hc]
      rfl
    · intro a ha hafrom
      rw [hcontent, hold a (hother a ha), Heap.content, hblock₁, if_neg hafrom]
      rfl
    · intro a ha hafrom
      rw [hnext₃, if_neg hafrom, if_neg (hother a ha), hnext₂, if_neg (hother a ha), hnext₁]
    · intro a ha hafirst
      rw [hprev₃, if_neg (hother a ha), hfirst, if_neg hafirst, hprev₂, if_neg (hother a ha), hprev₁]

theorem Adds.not_of_ne {h : Heap} {from_ : Addr} {version fromVersion v : Version} {r : Heap × Addr}
    (hadds : Adds h from_ version fromVersion r) {c : Commit} (hc : h.block from_ = some c)
    (hne : fromVersion ≠ v) : ¬ Adds h from_ version v r := by
  intro hadds'
  have hsame := hadds.bumped.symm.trans hadds'.bumped
  rw [Heap.content, hc] at hsame
  exact hne (congrArg Content.version (Option.some.inj hsame))

/-- **No call that adds a commit leaves the version of the commit it is added after.** Everything
else is as it should be: the new commit has the next version, and no other content and no link away
from the new commit changes. -/
theorem add_bumps_from {h : Heap} {malloc from_ : Addr} {c : Commit} (hnull : malloc ≠ null)
    (hfresh : malloc ∉ h.live) (hc : h.block from_ = some c) (hnext : h.next from_ ∈ h.live)
    (comment : Addr) :
    (∃ r, addMinorCommit h malloc from_ comment = some r
        ∧ Adds h from_ c.version.bumpMinor c.version.bumpMinor r
        ∧ ¬ Adds h from_ c.version.bumpMinor c.version r)
      ∧ ∃ r, addMajorCommit h malloc from_ comment = some r
        ∧ Adds h from_ { c.version.bumpMajor with minor := 0 } c.version.bumpMajor r
        ∧ ¬ Adds h from_ { c.version.bumpMajor with minor := 0 } c.version r := by
  constructor
  · obtain ⟨r, hrun, hadds⟩ := addCommit_adds Version.bumpMinor id hnull hfresh hc hnext comment
    rw [← addMinorCommit_eq] at hrun
    refine ⟨r, hrun, hadds, hadds.not_of_ne hc fun heq => ?_⟩
    have hminor : c.version.minor + 1 = c.version.minor := congrArg Version.minor heq
    simp at hminor
  · obtain ⟨r, hrun, hadds⟩ := addCommit_adds Version.bumpMajor (fun v => { v with minor := 0 })
      hnull hfresh hc hnext comment
    rw [← addMajorCommit_eq] at hrun
    refine ⟨r, hrun, hadds, hadds.not_of_ne hc fun heq => ?_⟩
    have hmajor : c.version.major + 1 = c.version.major := congrArg Version.major heq
    simp at hmajor

def release : Commit where
  id := 1
  version := { major := 1, minor := 2 }
  comment := null
  next := 16
  prev := 16

def releaseHeap : Heap where
  block := Function.update (fun _ => none) 16 (some release)
  nextId := 1

theorem add_bumps_from_release :
    (∃ r, addMinorCommit releaseHeap 32 16 null = some r
        ∧ Adds releaseHeap 16 release.version.bumpMinor release.version.bumpMinor r
        ∧ ¬ Adds releaseHeap 16 release.version.bumpMinor release.version r)
      ∧ ∃ r, addMajorCommit releaseHeap 32 16 null = some r
        ∧ Adds releaseHeap 16 { release.version.bumpMajor with minor := 0 }
            release.version.bumpMajor r
        ∧ ¬ Adds releaseHeap 16 { release.version.bumpMajor with minor := 0 } release.version r :=
  add_bumps_from (by decide) (by decide) rfl (by decide) null

theorem not_adds_release :
    16 ∈ releaseHeap.live ∧ 32 ∉ releaseHeap.live
      ∧ ¬ ∃ r, addMinorCommit releaseHeap 32 16 null = some r
        ∧ Adds releaseHeap 16 release.version.bumpMinor release.version r := by
  refine ⟨by decide, by decide, ?_⟩
  rintro ⟨r, hrun, hadds⟩
  have hafter : (addMinorCommit releaseHeap 32 16 null).map (fun r => r.1.content 16)
      = some (some { id := 1, version := { major := 1, minor := 3 }, comment := null }) := rfl
  rw [hrun, Option.map_some, hadds.bumped] at hafter
  exact absurd hafter (by decide)

end Pnl.Commits
