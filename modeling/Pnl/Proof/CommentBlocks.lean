import Pnl.Comment

/-!
# All or nothing

`new_comment` gives up at the first text it gets no block for, and leaves what it allocated before.
So it keeps its word exactly when every block is there.
-/

namespace Pnl.Comments

/-- What `malloc` may return in `h`: blocks that are free and distinct, and none of more than half of
the address space. -/
structure Mallocs.Allowed (m : Mallocs) (h : Heap) (args : Args) : Prop where
  null : h.block null = none
  free : ∀ p ∈ [m.comment, m.title, m.author, m.text], h.block p = none
  distinct : [m.comment, m.title, m.author, m.text].Pairwise fun p q => p = q → p = Comments.null
  title : 2 ^ 63 ≤ sizeT args.titleSize → m.title = Comments.null
  author : 2 ^ 63 ≤ sizeT args.authorSize → m.author = Comments.null
  text : 2 ^ 63 ≤ sizeT args.textSize → m.text = Comments.null

/-- A block with a copy of the first `size` bytes. -/
def copyOf (size : Int32) (src : List UInt8) : Block := .bytes ((src.take (sizeT size)).map some)

/-- `p` is a block that was free in `h` and now holds the first `size` bytes of `src`. -/
structure CopiedTo (h h' : Heap) (p : Addr) (size : Int32) (src : List UInt8) : Prop where
  fresh : h.block p = none
  readable : sizeT size ≤ src.length
  contents : h'.block p = some (copyOf size src)

/-- `ret` is a new comment of the texts at `p`, `q` and `r`, and nothing else is new. -/
structure IsComment (h h' : Heap) (ret : Addr) (args : Args) (p q r : Addr) : Prop where
  nonnull : ret ≠ null
  fresh : h.block ret = none
  comment : h'.block ret = some (.comment
    { titleSize := some args.titleSize
      title := some p
      authorSize := some args.authorSize
      author := some q
      textSize := some args.textSize
      text := some r })
  title : CopiedTo h h' p args.titleSize args.title
  author : CopiedTo h h' q args.authorSize args.author
  text : CopiedTo h h' r args.textSize args.text
  distinct : [ret, p, q, r].Nodup
  others : ∀ a ∉ [ret, p, q, r], h'.block a = h.block a

/-- A whole comment, or `NULL` and nothing allocated; and the call does return. -/
def AllOrNothing (h : Heap) (m : Mallocs) (args : Args) : Prop :=
  ∃ h' ret, newComment h m args = some (h', ret)
    ∧ ((∃ p q r, IsComment h h' ret args p q r)
      ∨ (ret = null ∧ h'.block = h.block))

/-- No `malloc` fails, and the texts are as long as the caller says. -/
structure Succeeds (m : Mallocs) (args : Args) : Prop where
  comment : m.comment ≠ null
  title : m.title ≠ null ∧ sizeT args.titleSize ≤ args.title.length
  author : m.author ≠ null ∧ sizeT args.authorSize ≤ args.author.length
  text : m.text ≠ null ∧ sizeT args.textSize ≤ args.text.length

/-! ### Heaps -/

theorem put_self (h : Heap) (p : Addr) (b : Block) : (h.put p b).block p = some b :=
  Function.update_self _ _ _

theorem put_of_ne (h : Heap) {p q : Addr} (hne : q ≠ p) (b : Block) :
    (h.put p b).block q = h.block q :=
  Function.update_of_ne hne _ _

theorem put_put (h : Heap) (p : Addr) (b b' : Block) : (h.put p b).put p b' = h.put p b' := by
  rw [Heap.put, Heap.put, Function.update_idem]
  rfl

theorem put_comm (h : Heap) {p q : Addr} (hne : p ≠ q) (b b' : Block) :
    (h.put p b).put q b' = (h.put q b').put p b := by
  rw [Heap.put, Heap.put, Heap.put, Heap.put, Function.update_comm hne.symm]

theorem store_of_comment {h : Heap} {c : Addr} {k : Comment} (hc : h.block c = some (.comment k))
    (f : Comment → Comment) : h.store c f = some (h.put c (.comment (f k))) := by
  rw [Heap.store, hc]

/-! ### One text -/

section Text

variable {h : Heap} {c malloc : Addr} {k : Comment} (size : Int32) (src : List UInt8)
  (setSize : Int32 → Comment → Comment) (setText : Addr → Comment → Comment)

theorem newText_null (hc : h.block c = some (.comment k)) :
    newText h c null size src setSize setText
      = some (h.put c (.comment (setText null (setSize size k))), false) := by
  have hstore := store_of_comment hc (setSize size)
  have hstore' := store_of_comment (put_self h c (.comment (setSize size k))) (setText null)
  simp [newText, Heap.malloc, hstore, hstore', put_put]

/-- The block goes in beside the comment, and the bytes into it. -/
theorem newText_some (hc : h.block c = some (.comment k)) (hmalloc : malloc ≠ null)
    (hne : malloc ≠ c) :
    newText h c malloc size src setSize setText
      = if sizeT size ≤ src.length then
          some ((h.put c (.comment (setText malloc (setSize size k)))).put malloc
            (copyOf size src), true)
        else none := by
  have hstore := store_of_comment hc (setSize size)
  set h₁ := (h.put c (.comment (setSize size k))).put malloc
    (.bytes (List.replicate (sizeT size) none)) with hh₁
  have hc₁ : h₁.block c = some (.comment (setSize size k)) := by
    rw [hh₁, put_of_ne _ hne.symm, put_self]
  have hstore₁ := store_of_comment hc₁ (setText malloc)
  set h₂ := h₁.put c (.comment (setText malloc (setSize size k))) with hh₂
  have hmalloc₂ : h₂.block malloc = some (.bytes (List.replicate (sizeT size) none)) := by
    rw [hh₂, put_of_ne _ hne, hh₁, put_self]
  have hcopy : h₂.memcpy malloc src (sizeT size)
      = if sizeT size ≤ src.length then
          some (h₂.put malloc (copyOf size src)) else none := by
    simp [Heap.memcpy, hmalloc₂, copyOf]
  have hsame : ∀ b, h₂.put malloc b
      = (h.put c (.comment (setText malloc (setSize size k)))).put malloc b := by
    intro b
    rw [hh₂, hh₁, put_comm _ hne, put_put, put_put]
  rw [newText, Option.bind_eq_bind, hstore, Option.bind_some, Heap.malloc, if_neg hmalloc, ← hh₁]
  dsimp only
  rw [hstore₁, Option.bind_some, if_neg hmalloc, hcopy]
  split_ifs
  · simp [hsame]
  · rfl

theorem newText_cases (hc : h.block c = some (.comment k)) (hne : malloc ≠ null → malloc ≠ c) :
    (malloc ≠ null ∧ sizeT size ≤ src.length)
        ∧ newText h c malloc size src setSize setText
          = some ((h.put c (.comment (setText malloc (setSize size k)))).put malloc
            (copyOf size src), true)
      ∨ ¬ (malloc ≠ null ∧ sizeT size ≤ src.length)
        ∧ (newText h c malloc size src setSize setText = none
          ∨ ∃ k', newText h c malloc size src setSize setText
            = some (h.put c (.comment k'), false)) := by
  by_cases hnull : malloc = null
  · right
    refine ⟨fun hok => hok.1 hnull, Or.inr ⟨setText null (setSize size k), ?_⟩⟩
    rw [hnull]
    exact newText_null size src setSize setText hc
  · have hrun := newText_some size src setSize setText hc hnull (hne hnull)
    by_cases hreadable : sizeT size ≤ src.length
    · rw [if_pos hreadable] at hrun
      exact Or.inl ⟨⟨hnull, hreadable⟩, hrun⟩
    · rw [if_neg hreadable] at hrun
      exact Or.inr ⟨fun hok => hreadable hok.2, Or.inl hrun⟩

end Text

/-! ### The call -/

section Call

variable {h : Heap} {m : Mallocs} {args : Args} (hallowed : m.Allowed h args)

include hallowed

theorem Mallocs.Allowed.ne :
    (m.title ≠ Comments.null → m.title ≠ m.comment)
      ∧ (m.author ≠ Comments.null → m.author ≠ m.comment ∧ m.author ≠ m.title)
      ∧ (m.text ≠ Comments.null → m.text ≠ m.comment ∧ m.text ≠ m.title ∧ m.text ≠ m.author) := by
  have hdistinct := hallowed.distinct
  simp only [List.pairwise_cons, List.mem_cons, List.not_mem_nil, or_false, forall_eq_or_imp,
    forall_eq] at hdistinct
  obtain ⟨⟨hct, hca, hcx⟩, ⟨hta, htx⟩, hax, -⟩ := hdistinct
  refine ⟨fun hn heq => ?_, fun hn => ⟨fun heq => ?_, fun heq => ?_⟩,
    fun hn => ⟨fun heq => ?_, fun heq => ?_, fun heq => ?_⟩⟩
  · exact hn (heq.trans (hct heq.symm))
  · exact hn (heq.trans (hca heq.symm))
  · exact hn (heq.trans (hta heq.symm))
  · exact hn (heq.trans (hcx heq.symm))
  · exact hn (heq.trans (htx heq.symm))
  · exact hn (heq.trans (hax heq.symm))

/-- What a call that succeeds leaves. -/
def Heap.withComment (h : Heap) (m : Mallocs) (args : Args) : Heap :=
  (((h.put m.comment (.comment
    { titleSize := some args.titleSize
      title := some m.title
      authorSize := some args.authorSize
      author := some m.author
      textSize := some args.textSize
      text := some m.text })).put m.title (copyOf args.titleSize args.title)).put
        m.author (copyOf args.authorSize args.author)).put m.text (copyOf args.textSize args.text)

theorem isComment_withComment (hok : Succeeds m args) :
    IsComment h (h.withComment m args) m.comment args m.title m.author m.text := by
  obtain ⟨htitle, hauthor, htext⟩ := hallowed.ne
  obtain ⟨hcomment, ⟨ht, htreadable⟩, ⟨ha, hareadable⟩, ⟨hx, hxreadable⟩⟩ := hok
  have hct := htitle ht
  obtain ⟨hca, hta⟩ := hauthor ha
  obtain ⟨hcx, htx, hax⟩ := htext hx
  have hfree := hallowed.free
  simp only [List.forall_mem_cons, List.not_mem_nil, false_implies, implies_true, and_true] at hfree
  obtain ⟨hfreeComment, hfreeTitle, hfreeAuthor, hfreeText⟩ := hfree
  constructor
  · exact hcomment
  · exact hfreeComment
  · rw [Heap.withComment, put_of_ne _ hcx.symm, put_of_ne _ hca.symm, put_of_ne _ hct.symm, put_self]
  · refine ⟨hfreeTitle, htreadable, ?_⟩
    rw [Heap.withComment, put_of_ne _ htx.symm, put_of_ne _ hta.symm, put_self]
  · refine ⟨hfreeAuthor, hareadable, ?_⟩
    rw [Heap.withComment, put_of_ne _ hax.symm, put_self]
  · refine ⟨hfreeText, hxreadable, ?_⟩
    rw [Heap.withComment, put_self]
  · simp [hct.symm, hca.symm, hcx.symm, hta.symm, htx.symm, hax.symm]
  · intro a ha
    simp only [List.mem_cons, List.not_mem_nil, or_false, not_or] at ha
    rw [Heap.withComment, put_of_ne _ ha.2.2.2, put_of_ne _ ha.2.2.1, put_of_ne _ ha.2.1,
      put_of_ne _ ha.1]

/-- Either every text is copied, or the call goes wrong or returns `NULL` with the comment still
allocated. -/
theorem newComment_cases :
    (Succeeds m args ∧ ∃ h', newComment h m args = some (h', m.comment)
        ∧ IsComment h h' m.comment args m.title m.author m.text)
      ∨ (¬ Succeeds m args ∧ (newComment h m args = none
        ∨ ∃ h', newComment h m args = some (h', Comments.null) ∧ h'.block m.comment ≠ none)) := by
  obtain ⟨htitle, hauthor, htext⟩ := hallowed.ne
  by_cases hcomment : m.comment = Comments.null
  · refine Or.inr ⟨fun hok => hok.comment hcomment, Or.inl ?_⟩
    simp [newComment, hcomment, Heap.malloc, newText, Heap.store, hallowed.null]
  set h₀ := h.put m.comment (.comment {}) with hh₀
  have hstart : h.malloc m.comment (.comment {}) = h₀ := if_neg hcomment
  have hc₀ : h₀.block m.comment = some (.comment {}) := put_self _ _ _
  rcases newText_cases args.titleSize args.title
      (fun size k => { k with titleSize := some size }) (fun p k => { k with title := some p })
      hc₀ htitle with ⟨hok₁, hrun₁⟩ | ⟨hfail, hstop⟩
  swap
  · refine Or.inr ⟨fun hok => hfail hok.title, ?_⟩
    rcases hstop with hstop | ⟨k', hstop⟩
    · exact Or.inl (by simp [newComment, hstart, hstop])
    · exact Or.inr ⟨_, by simp [newComment, hstart, hstop]; rfl, by simp [put_self]⟩
  set k₁ : Comment := { titleSize := some args.titleSize, title := some m.title } with hk₁
  set h₁ := (h₀.put m.comment (.comment k₁)).put m.title (copyOf args.titleSize args.title)
    with hh₁
  have hc₁ : h₁.block m.comment = some (.comment k₁) := by
    rw [hh₁, put_of_ne _ (htitle hok₁.1).symm, put_self]
  rcases newText_cases args.authorSize args.author
      (fun size k => { k with authorSize := some size }) (fun p k => { k with author := some p })
      hc₁ (fun hn => (hauthor hn).1) with ⟨hok₂, hrun₂⟩ | ⟨hfail, hstop⟩
  swap
  · refine Or.inr ⟨fun hok => hfail hok.author, ?_⟩
    rcases hstop with hstop | ⟨k', hstop⟩
    · exact Or.inl (by simp [newComment, hstart, hrun₁, hstop])
    · exact Or.inr ⟨_, by simp [newComment, hstart, hrun₁, hstop]; rfl, by simp [put_self]⟩
  set k₂ : Comment :=
    { k₁ with authorSize := some args.authorSize, author := some m.author } with hk₂
  set h₂ := (h₁.put m.comment (.comment k₂)).put m.author (copyOf args.authorSize args.author)
    with hh₂
  have hc₂ : h₂.block m.comment = some (.comment k₂) := by
    rw [hh₂, put_of_ne _ (hauthor hok₂.1).1.symm, put_self]
  rcases newText_cases args.textSize args.text
      (fun size k => { k with textSize := some size }) (fun p k => { k with text := some p })
      hc₂ (fun hn => (htext hn).1) with ⟨hok₃, hrun₃⟩ | ⟨hfail, hstop⟩
  swap
  · refine Or.inr ⟨fun hok => hfail hok.text, ?_⟩
    rcases hstop with hstop | ⟨k', hstop⟩
    · exact Or.inl (by simp [newComment, hstart, hrun₁, hrun₂, hstop])
    · exact Or.inr ⟨_, by simp [newComment, hstart, hrun₁, hrun₂, hstop]; rfl, by simp [put_self]⟩
  have hok : Succeeds m args := ⟨hcomment, hok₁, hok₂, hok₃⟩
  set k₃ : Comment := { k₂ with textSize := some args.textSize, text := some m.text }
  have hlast : h₂.put m.comment (.comment k₃) = ((h.put m.comment (.comment k₃)).put m.title
      (copyOf args.titleSize args.title)).put m.author (copyOf args.authorSize args.author) := by
    rw [hh₂, put_comm _ (hauthor hok₂.1).1, put_put, hh₁, put_comm _ (htitle hok₁.1), put_put, hh₀,
      put_put]
  rw [hlast] at hrun₃
  refine Or.inl ⟨hok, h.withComment m args, ?_, isComment_withComment hallowed hok⟩
  simp [newComment, hstart, hrun₁, hrun₂, hrun₃]
  rfl

/-- **`new_comment` is all or nothing exactly when it gets every block**, and the texts can be read
as far as the caller says. -/
theorem allOrNothing_iff : AllOrNothing h m args ↔ Succeeds m args := by
  rcases newComment_cases hallowed with ⟨hok, h', hrun, hcomment⟩ | ⟨hfail, hstop⟩
  · exact iff_of_true ⟨h', m.comment, hrun, Or.inl ⟨_, _, _, hcomment⟩⟩ hok
  · refine iff_of_false ?_ hfail
    rintro ⟨h', ret, hrun, hresult⟩
    rcases hstop with hstop | ⟨h₁, hstop, hleft⟩
    · rw [hstop] at hrun
      contradiction
    · rw [hstop, Option.some.injEq, Prod.mk.injEq] at hrun
      obtain ⟨rfl, rfl⟩ := hrun
      rcases hresult with ⟨p, q, r, hcomment⟩ | ⟨-, hsame⟩
      · exact hcomment.nonnull rfl
      · rw [hsame] at hleft
        exact hleft (hallowed.free _ List.mem_cons_self)

end Call

def emptyHeap : Heap := ⟨fun _ => none⟩

/-- The bytes of `"test1"`, of `"J. Sopena"` and of `"Un texte"`, with their zeros. -/
def testArgs : Args where
  titleSize := 6
  title := [116, 101, 115, 116, 49, 0]
  authorSize := 10
  author := [74, 46, 32, 83, 111, 112, 101, 110, 97, 0]
  textSize := 9
  text := [85, 110, 32, 116, 101, 120, 116, 101, 0]

def fourBlocks : Mallocs := ⟨0x10, 0x40, 0x60, 0x80⟩

theorem allOrNothing_test : AllOrNothing emptyHeap fourBlocks testArgs :=
  (allOrNothing_iff ⟨rfl, by decide, by decide, by decide, by decide, by decide⟩).mpr
    ⟨by decide, by decide, by decide, by decide⟩

/-- An author of -1 bytes, as in the second call of the test. -/
theorem not_allOrNothing_test :
    ({ fourBlocks with author := null } : Mallocs).Allowed emptyHeap { testArgs with authorSize := -1 }
      ∧ ¬ AllOrNothing emptyHeap { fourBlocks with author := null }
        { testArgs with authorSize := -1 } := by
  refine ⟨⟨rfl, by decide, by decide, by decide, by decide, by decide⟩, ?_⟩
  rintro ⟨h', ret, hrun, hresult⟩
  have hleft : (newComment emptyHeap { fourBlocks with author := null }
      { testArgs with authorSize := -1 }).map (fun r => ((r.1.block 0x10).isSome, r.2))
        = some (true, null) := rfl
  rw [hrun, Option.map_some, Option.some.injEq, Prod.mk.injEq] at hleft
  obtain ⟨hlive, rfl⟩ := hleft
  rcases hresult with ⟨p, q, r, hcomment⟩ | ⟨-, hsame⟩
  · exact hcomment.nonnull rfl
  · rw [hsame] at hlive
    exact absurd hlive (by decide)

end Pnl.Comments
