import Pnl.Lib.Rings

/-!
# Rings out of segments

A row of cells that the pointers link to each other stays one when only the pointers that lead out
of it change. So whatever is cut out of rings and put together differently is taken apart into
segments first, and the new rings are closed from them.
-/

namespace Pnl.Rings

variable {α : Type*}

/-- Cells in a row, linked to each other from `first` to `last`. -/
structure Segment (next prev : α → α) (cells : List α) (first last : α) : Prop where
  head : cells.head? = some first
  last : cells.getLast? = some last
  chain : cells.IsChain (Linked next prev)

section Segments

variable {next prev next' prev' : α → α} {xs ys : List α} {a b c d : α}

theorem segment_singleton (next prev : α → α) (a : α) : Segment next prev [a] a a :=
  ⟨rfl, rfl, List.isChain_singleton a⟩

theorem Segment.head_mem (h : Segment next prev xs a b) : a ∈ xs := List.mem_of_head? h.head

theorem Segment.last_mem (h : Segment next prev xs a b) : b ∈ xs := List.mem_of_getLast? h.last

theorem Segment.length_eq_one (h : Segment next prev xs a b) (hnodup : xs.Nodup) :
    xs.length = 1 ↔ a = b := by
  obtain ⟨tail, rfl⟩ := List.head?_eq_some_iff.mp h.head
  cases tail with
  | nil => simpa using h.last
  | cons x tail =>
      have hlast := h.last
      rw [List.getLast?_cons_cons] at hlast
      have hne : a ≠ b := by
        rintro rfl
        exact (List.nodup_cons.mp hnodup).1 (List.mem_of_getLast? hlast)
      simp [hne]

theorem Segment.append (h : Segment next prev xs a b) (h' : Segment next prev ys c d)
    (hlink : Linked next prev b c) : Segment next prev (xs ++ ys) a d := by
  refine ⟨?_, ?_, List.isChain_append.mpr ⟨h.chain, h'.chain, ?_⟩⟩
  · rw [List.head?_append, h.head, Option.some_or]
  · rw [List.getLast?_append, h'.last, Option.some_or]
  · rintro x hx y hy
    rw [h.last, Option.mem_some_iff] at hx
    rw [h'.head, Option.mem_some_iff] at hy
    exact hx ▸ hy ▸ hlink

theorem Segment.split (h : Segment next prev (xs ++ ys) a d) (hxs : xs ≠ []) (hys : ys ≠ []) :
    ∃ b c, Segment next prev xs a b ∧ Segment next prev ys c d ∧ Linked next prev b c := by
  obtain ⟨hchain, hchain', hlink⟩ := List.isChain_append.mp h.chain
  obtain ⟨b, hb⟩ := Option.isSome_iff_exists.mp (List.getLast?_isSome.mpr hxs)
  obtain ⟨c, hc⟩ := Option.isSome_iff_exists.mp (List.isSome_head?.mpr hys)
  obtain ⟨a', ha'⟩ := Option.isSome_iff_exists.mp (List.isSome_head?.mpr hxs)
  obtain ⟨d', hd'⟩ := Option.isSome_iff_exists.mp (List.getLast?_isSome.mpr hys)
  have hhead := h.head
  have hlast := h.last
  rw [List.head?_append, ha', Option.some_or, Option.some.injEq] at hhead
  rw [List.getLast?_append, hd', Option.some_or, Option.some.injEq] at hlast
  exact ⟨b, c, ⟨hhead ▸ ha', hb, hchain⟩, ⟨hc, hlast ▸ hd', hchain'⟩, hlink b hb c hc⟩

/-- Only the next pointer of the last cell and the previous one of the first lead out. -/
theorem Segment.relink (h : Segment next prev xs a b) (hnodup : xs.Nodup)
    (hnext : ∀ x ∈ xs, x ≠ b → next' x = next x) (hprev : ∀ x ∈ xs, x ≠ a → prev' x = prev x) :
    Segment next' prev' xs a b := by
  refine ⟨h.head, h.last, ?_⟩
  obtain ⟨init, rfl⟩ := List.getLast?_eq_some_iff.mp h.last
  obtain ⟨tail, htail⟩ := List.head?_eq_some_iff.mp h.head
  apply isChain_relink h.chain
  · intro x hx
    refine hnext x (List.mem_append_left _ hx) fun heq => ?_
    rw [List.nodup_append_comm, List.singleton_append, List.nodup_cons] at hnodup
    exact hnodup.1 (heq ▸ hx)
  · intro y hy
    rw [htail, List.tail_cons] at hy
    rw [htail, List.nodup_cons] at hnodup
    exact hprev y (htail ▸ List.mem_cons_of_mem a hy) fun heq => hnodup.1 (heq ▸ hy)

theorem Segment.isRing (h : Segment next prev xs a b) (hnodup : xs.Nodup)
    (hlink : Linked next prev b a) : IsRing next prev (xs : List α) := by
  obtain ⟨tail, rfl⟩ := List.head?_eq_some_iff.mp h.head
  refine ⟨by simp, Cycle.nodup_coe_iff.mpr hnodup, ?_⟩
  rw [Cycle.chain_coe_cons, ← List.cons_append]
  exact (h.append (segment_singleton next prev a) hlink).chain

theorem IsRing.segment (h : IsRing next prev (xs : List α)) :
    ∃ a b, Segment next prev xs a b ∧ Linked next prev b a ∧ xs.Nodup := by
  have hchain := h.chain
  have hne : xs ≠ [] := fun heq => h.ne_nil (by rw [heq]; rfl)
  obtain ⟨a, tail, rfl⟩ := List.exists_cons_of_ne_nil hne
  rw [Cycle.chain_coe_cons, ← List.cons_append, List.isChain_append] at hchain
  obtain ⟨b, hb⟩ := Option.isSome_iff_exists.mp (List.getLast?_isSome.mpr hne)
  exact ⟨a, b, ⟨rfl, hb, hchain.1⟩, hchain.2.2 b hb a rfl, Cycle.nodup_coe_iff.mp h.nodup⟩

theorem IsRing.segment_cons (h : IsRing next prev (a :: xs : List α)) :
    Segment next prev (a :: xs) a (prev a) ∧ next (prev a) = a ∧ (a :: xs).Nodup := by
  obtain ⟨a', b, hseg, ⟨hnext, hprev⟩, hnodup⟩ := h.segment
  obtain rfl : a = a' := Option.some.inj hseg.head
  exact ⟨hprev ▸ hseg, by rw [hprev, hnext], hnodup⟩

theorem IsRing.segment_concat (h : IsRing next prev (xs ++ [a] : List α)) :
    Segment next prev (xs ++ [a]) (next a) a ∧ prev (next a) = a ∧ (xs ++ [a]).Nodup := by
  obtain ⟨b, a', hseg, ⟨hnext, hprev⟩, hnodup⟩ := h.segment
  have hlast := hseg.last
  rw [List.getLast?_concat, Option.some.injEq] at hlast
  subst hlast
  exact ⟨hnext ▸ hseg, by rw [hnext, hprev], hnodup⟩

/-- What is left of a ring without one of its cells. -/
theorem IsRing.rest (h : IsRing next prev (a :: xs : List α)) (hne : xs ≠ []) :
    Segment next prev xs (next a) (prev a) ∧ a ∉ xs ∧ xs.Nodup := by
  obtain ⟨hseg, -, hnodup⟩ := h.segment_cons
  rw [← List.singleton_append] at hseg
  obtain ⟨b, c, hsingle, hrest, hnext, -⟩ := hseg.split (List.cons_ne_nil a []) hne
  obtain rfl : a = b := Option.some.inj hsingle.last
  rw [List.nodup_cons] at hnodup
  exact ⟨hnext ▸ hrest, hnodup⟩

theorem IsRing.prev_next {c : Cycle α} (h : IsRing next prev c) (ha : a ∈ c) :
    prev (next a) = a := by
  obtain ⟨l, rfl⟩ := exists_cons_of_mem ha
  rw [Cycle.coe_cons_eq_coe_append] at h
  exact h.segment_concat.2.1

theorem IsRing.next_mem {c : Cycle α} (h : IsRing next prev c) (ha : a ∈ c) : next a ∈ c := by
  obtain ⟨l, rfl⟩ := exists_cons_of_mem ha
  rw [Cycle.coe_cons_eq_coe_append] at h ⊢
  exact Cycle.mem_coe_iff.mpr h.segment_concat.1.head_mem

theorem IsRing.prev_mem {c : Cycle α} (h : IsRing next prev c) (ha : a ∈ c) : prev a ∈ c := by
  obtain ⟨l, rfl⟩ := exists_cons_of_mem ha
  exact Cycle.mem_coe_iff.mpr h.segment_cons.1.last_mem

/-- **One ring out of two segments.** -/
theorem isRing_join (h : Segment next prev xs a b) (h' : Segment next prev ys c d)
    (hnodup : (xs ++ ys).Nodup) (hbc : Linked next' prev' b c) (hda : Linked next' prev' d a)
    (hnext : ∀ x ∈ xs ++ ys, x ≠ b → x ≠ d → next' x = next x)
    (hprev : ∀ x ∈ xs ++ ys, x ≠ a → x ≠ c → prev' x = prev x) :
    IsRing next' prev' (xs ++ ys : List α) := by
  obtain ⟨hxs, hys, hdisjoint⟩ := List.nodup_append.mp hnodup
  have hfirst : Segment next' prev' xs a b := by
    apply h.relink hxs
    · exact fun x hx hxb => hnext x (List.mem_append_left ys hx) hxb (hdisjoint x hx d h'.last_mem)
    · exact fun x hx hxa => hprev x (List.mem_append_left ys hx) hxa (hdisjoint x hx c h'.head_mem)
  have hsecond : Segment next' prev' ys c d := by
    apply h'.relink hys
    · exact fun x hx hxd =>
        hnext x (List.mem_append_right xs hx) (hdisjoint b h.last_mem x hx).symm hxd
    · exact fun x hx hxc =>
        hprev x (List.mem_append_right xs hx) (hdisjoint a h.head_mem x hx).symm hxc
  exact (hfirst.append hsecond hbc).isRing hnodup hda

/-- **One ring out of one segment.** -/
theorem isRing_close (h : Segment next prev xs a b) (hnodup : xs.Nodup)
    (hba : Linked next' prev' b a) (hnext : ∀ x ∈ xs, x ≠ b → next' x = next x)
    (hprev : ∀ x ∈ xs, x ≠ a → prev' x = prev x) : IsRing next' prev' (xs : List α) :=
  (h.relink hnodup hnext hprev).isRing hnodup hba

theorem isRing_singleton (hnext : next a = a) (hprev : prev a = a) :
    IsRing next prev ([a] : List α) :=
  (segment_singleton next prev a).isRing (List.nodup_singleton a) ⟨hnext, hprev⟩

end Segments

/-! ### Two readings of one ring -/

section Unique

variable {next prev : α → α}

theorem Ahead.eq_rest {step : α → α} {last p : α} {rest rest' : List α}
    (h : Ahead step last rest p) (h' : Ahead step last rest' p) : rest = rest' := by
  induction rest generalizing p rest' with
  | nil =>
      cases rest' with
      | nil => rfl
      | cons b rest' => exact absurd h.eq_last h'.ne_last
  | cons a rest ih =>
      cases rest' with
      | nil => exact absurd h'.eq_last h.ne_last
      | cons b rest' => rw [← h.eq, ← h'.eq, ih h.next h'.next]

theorem IsRing.ahead {a : α} {l : List α} (h : IsRing next prev (a :: l : List α)) :
    Ahead next a l (next a) := by
  have hchain := h.chain
  rw [Cycle.chain_coe_cons, ← List.cons_append] at hchain
  exact ahead_of_isChain (hchain.imp fun _ _ hlinked => hlinked.1)
    (List.nodup_cons.mp (Cycle.nodup_coe_iff.mp h.nodup)).1

theorem IsRing.eq_of_cons {a : α} {l l' : List α} (h : IsRing next prev (a :: l : List α))
    (h' : IsRing next prev (a :: l' : List α)) : l = l' :=
  h.ahead.eq_rest h'.ahead

/-- **The pointers determine the ring of a cell.** -/
theorem IsRing.eq_of_mem {c c' : Cycle α} (h : IsRing next prev c) (h' : IsRing next prev c')
    {a : α} (ha : a ∈ c) (ha' : a ∈ c') : c = c' := by
  obtain ⟨l, rfl⟩ := exists_cons_of_mem ha
  obtain ⟨l', rfl⟩ := exists_cons_of_mem ha'
  rw [h.eq_of_cons h']

end Unique

end Pnl.Rings
