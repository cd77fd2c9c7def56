import Mathlib.Logic.Function.Basic
import Pnl.Lib.Rings

/-!
# Lists with a head

The linked lists of the kernel: a `list_head` in each entry and one for the list itself, all in one
ring. Reading or writing a `list_head` in memory that is not allocated is undefined, so the
operations have a result only where all they touch is live. What `list_del` took out is left with
two poisoned pointers.
-/

namespace Pnl.ListHeads

open Rings

/-- The `list_head`s in memory. -/
structure Links (α : Type*) where
  next : α → α
  prev : α → α

/-! ### Operations -/

section Operations

variable {α : Type*} [DecidableEq α] (l : Links α) (live : Set α) [DecidablePred (· ∈ live)]

def Links.getNext (a : α) : Option α := if a ∈ live then some (l.next a) else none

def Links.getPrev (a : α) : Option α := if a ∈ live then some (l.prev a) else none

def Links.setNext (a b : α) : Option (Links α) :=
  if a ∈ live then some { l with next := Function.update l.next a b } else none

def Links.setPrev (a b : α) : Option (Links α) :=
  if a ∈ live then some { l with prev := Function.update l.prev a b } else none

def Links.initListHead (list : α) : Option (Links α) := do
  let l ← l.setNext live list list
  l.setPrev live list list

/-- `__list_add`. -/
def Links.insert (new prev next : α) : Option (Links α) := do
  let l ← l.setPrev live next new
  let l ← l.setNext live new next
  let l ← l.setPrev live new prev
  l.setNext live prev new

def Links.listAddTail (new head : α) : Option (Links α) := do
  let prev ← l.getPrev live head
  l.insert live new prev head

/-- `__list_del`. -/
def Links.unlink (prev next : α) : Option (Links α) := do
  let l ← l.setPrev live next prev
  l.setNext live prev next

def Links.listDelEntry (entry : α) : Option (Links α) := do
  let prev ← l.getPrev live entry
  let next ← l.getNext live entry
  l.unlink live prev next

def Links.listDel (poison₁ poison₂ entry : α) : Option (Links α) := do
  let l ← l.listDelEntry live entry
  let l ← l.setNext live entry poison₁
  l.setPrev live entry poison₂

def Links.listDelInit (entry : α) : Option (Links α) := do
  let l ← l.listDelEntry live entry
  l.initListHead live entry

end Operations

/-! ### Lists -/

section Lists

variable {α : Type*}

/-- The list at `head` has these entries, and all of its `list_head`s are live. -/
structure Links.IsList (l : Links α) (live : Set α) (head : α) (entries : List α) : Prop where
  ring : IsRing l.next l.prev (head :: entries : List α)
  live : ∀ a ∈ head :: entries, a ∈ live

variable {l : Links α} {live : Set α} {head : α} {entries : List α}

theorem Links.IsList.of_live (h : l.IsList live head entries) {live' : Set α}
    (hlive : ∀ a ∈ head :: entries, a ∈ live') : l.IsList live' head entries :=
  ⟨h.ring, hlive⟩

/-- Around the list, from the head back to it. -/
theorem Links.IsList.chain (h : l.IsList live head entries) :
    (head :: entries ++ [head]).IsChain (Linked l.next l.prev) := by
  have hchain := h.ring.chain
  rwa [Cycle.chain_coe_cons] at hchain

theorem Links.IsList.nodup (h : l.IsList live head entries) : (head :: entries).Nodup :=
  Cycle.nodup_coe_iff.mp h.ring.nodup

theorem exists_concat (a : α) (as : List α) : ∃ init last, a :: as = init ++ [last] :=
  ⟨_, _, (List.dropLast_append_getLast (List.cons_ne_nil a as)).symm⟩

theorem Links.IsList.exists_last (h : l.IsList live head entries) :
    ∃ init last, head :: entries = init ++ [last] ∧ l.next last = head ∧ l.prev head = last := by
  obtain ⟨init, last, hsplit⟩ := exists_concat head entries
  have hchain := h.chain
  rw [hsplit, List.append_assoc] at hchain
  obtain ⟨hnext, hprev⟩ := List.isChain_pair.mp hchain.right_of_append
  exact ⟨init, last, hsplit, hnext, hprev⟩

theorem Links.IsList.head_notMem (h : l.IsList live head entries) : head ∉ entries :=
  (List.nodup_cons.mp h.nodup).1

theorem Links.IsList.forward (h : l.IsList live head entries) :
    Ahead l.next head entries (l.next head) :=
  ahead_of_isChain (h.chain.imp fun _ _ hlinked => hlinked.1) h.head_notMem

theorem Links.IsList.backward (h : l.IsList live head entries) :
    Ahead l.prev head entries.reverse (l.prev head) := by
  have hchain : (head :: entries ++ [head]).reverse.IsChain fun x y => l.prev x = y :=
    List.isChain_reverse.mpr (h.chain.imp fun _ _ hlinked => hlinked.2)
  rw [List.cons_append, List.reverse_cons, List.reverse_append, List.reverse_singleton,
    List.singleton_append] at hchain
  exact ahead_of_isChain hchain (by simpa using h.head_notMem)

theorem around {next prev : α → α} {p v : α} {as : List α}
    (h : IsRing next prev (p :: v :: as : List α)) :
    prev v = p ∧ next v ∈ p :: as ∧ v ∉ p :: as := by
  obtain ⟨⟨b, m, hsplit, -, hprev, -⟩, hchain, hp, hnodup⟩ := isRing_cons h
  obtain ⟨rfl, -⟩ := List.cons.inj hsplit
  obtain ⟨n, hn⟩ : ∃ n, (as ++ [p]).head? = some n := Option.isSome_iff_exists.mp (by simp)
  rw [List.cons_append, List.isChain_cons] at hchain
  have hnext : next v = n := (hchain.1 n hn).1
  refine ⟨hprev, ?_, ?_⟩
  · have hmem := List.mem_of_head? hn
    rw [hnext]
    simpa [or_comm] using hmem
  · rw [List.mem_cons, not_or]
    exact ⟨fun heq => hp (heq ▸ List.mem_cons_self), (List.nodup_cons.mp hnodup).1⟩

end Lists

/-! ### What the operations do to a list -/

section Rules

variable {α : Type*} [DecidableEq α] {l : Links α} {live : Set α} [DecidablePred (· ∈ live)]
  {head : α} {entries : List α}

omit [DecidableEq α] in
theorem getNext_of_live {a : α} (ha : a ∈ live) : l.getNext live a = some (l.next a) := if_pos ha

omit [DecidableEq α] in
theorem getPrev_of_live {a : α} (ha : a ∈ live) : l.getPrev live a = some (l.prev a) := if_pos ha

theorem setNext_of_live {a : α} (ha : a ∈ live) (b : α) :
    l.setNext live a b = some { l with next := Function.update l.next a b } :=
  if_pos ha

theorem setPrev_of_live {a : α} (ha : a ∈ live) (b : α) :
    l.setPrev live a b = some { l with prev := Function.update l.prev a b } :=
  if_pos ha

/-- The pointers around `v` lead past it. -/
def Links.unlinked (l : Links α) (v : α) : Links α where
  next := Function.update l.next (l.prev v) (l.next v)
  prev := Function.update l.prev (l.next v) (l.prev v)

theorem listDelEntry_eq {v : α} (hv : v ∈ live) (hprev : l.prev v ∈ live) (hnext : l.next v ∈ live) :
    l.listDelEntry live v = some (l.unlinked v) := by
  simp only [Links.listDelEntry, Links.unlink, getPrev_of_live hv, getNext_of_live hv,
    setPrev_of_live hnext, setNext_of_live hprev, Option.bind_eq_bind, Option.bind_some]
  rfl

theorem initListHead_isList (hhead : head ∈ live) :
    ∃ l', l.initListHead live head = some l' ∧ l'.IsList live head [] := by
  refine ⟨_, by rw [Links.initListHead, setNext_of_live hhead, Option.bind_eq_bind,
    Option.bind_some, setPrev_of_live hhead], ⟨?_, by simpa using hhead⟩⟩
  refine ⟨by simp, by simp, ?_⟩
  rw [Cycle.chain_singleton]
  exact ⟨Function.update_self _ _ _, Function.update_self _ _ _⟩

/-- **`list_add_tail` adds an entry at the end.** -/
theorem Links.IsList.listAddTail (h : l.IsList live head entries) {new : α} (hnew : new ∈ live)
    (hfresh : new ∉ head :: entries) :
    ∃ l', l.listAddTail live new head = some l' ∧ l'.IsList live head (entries ++ [new]) := by
  obtain ⟨init, last, hsplit, hnext, hprev⟩ := h.exists_last
  have hhead : head ∈ live := h.live head List.mem_cons_self
  have hlast : last ∈ live := h.live last (by simp [hsplit])
  have hring : IsRing l.next l.prev (last :: init : List α) := by
    rw [Cycle.coe_cons_eq_coe_append, ← hsplit]
    exact h.ring
  have hmem : ∀ a, a ∈ last :: init ↔ a ∈ head :: entries := by
    intro a
    rw [hsplit, List.mem_append, List.mem_singleton, List.mem_cons]
    exact or_comm
  have hne : ∀ a ∈ last :: init, a ≠ new := fun a ha heq => hfresh ((hmem a).mp ha |> (heq ▸ ·))
  refine ⟨{ next := Function.update (Function.update l.next new head) last new
            prev := Function.update (Function.update l.prev head new) new last }, ?_, ?_⟩
  · simp only [Links.listAddTail, Links.insert, getPrev_of_live hhead, hprev, setPrev_of_live hhead,
      setNext_of_live hnew, setPrev_of_live hnew, setNext_of_live hlast, Option.bind_eq_bind,
      Option.bind_some]
  · refine ⟨?_, fun a ha => ?_⟩
    · have hcycle : ((head :: (entries ++ [new]) : List α) : Cycle α)
          = (last :: new :: init : List α) := by
        rw [← List.cons_append, hsplit, ← Cycle.coe_cons_eq_coe_append,
          Cycle.coe_cons_eq_coe_append (new :: init) last, List.cons_append]
      rw [hcycle]
      apply isRing_insertAfter hring fun hmem' => hfresh ((hmem new).mp hmem')
      · exact Function.update_self _ _ _
      · dsimp only
        rw [Function.update_of_ne (hne last List.mem_cons_self).symm, Function.update_self, hnext]
      · intro a ha hne'
        dsimp only
        rw [Function.update_of_ne hne',
          Function.update_of_ne (hne a (List.mem_cons_of_mem last ha))]
      · exact Function.update_self _ _ _
      · dsimp only
        rw [hnext, Function.update_of_ne (hne head ((hmem head).mpr List.mem_cons_self)),
          Function.update_self]
      · intro a ha hne'
        rw [hnext] at hne'
        dsimp only
        rw [Function.update_of_ne (hne a ha), Function.update_of_ne hne']
    · rw [← List.cons_append, List.mem_append, List.mem_singleton] at ha
      rcases ha with ha | rfl
      · exact h.live a ha
      · exact hnew

/-- **`list_del` takes an entry out**, wherever it is on the list. -/
theorem Links.IsList.listDel {before after : List α} {v : α}
    (h : l.IsList live head (before ++ v :: after)) (poison₁ poison₂ : α) :
    ∃ l', l.listDel live poison₁ poison₂ v = some l' ∧ l'.IsList live head (before ++ after) := by
  obtain ⟨init, p, hsplit⟩ := exists_concat head before
  have hrotate : ∀ as : List α, ((head :: (before ++ as) : List α) : Cycle α)
      = (p :: (as ++ init) : List α) := by
    intro as
    rw [← List.cons_append, hsplit, List.append_assoc, List.singleton_append, ← List.cons_append,
      Cycle.coe_eq_coe]
    exact List.isRotated_append
  have hring : IsRing l.next l.prev (p :: v :: (after ++ init) : List α) := by
    have hring := h.ring
    rwa [hrotate, List.cons_append] at hring
  obtain ⟨hprev, hnext, hv⟩ := around hring
  have hmem : ∀ a, a ∈ p :: (after ++ init) ↔ a ∈ head :: (before ++ after) := by
    intro a
    have hcycle := hrotate after
    rw [← Cycle.mem_coe_iff, ← hcycle, Cycle.mem_coe_iff]
  have hlive : ∀ a ∈ p :: (after ++ init), a ∈ live := by
    intro a ha
    apply h.live
    have hmem' := (hmem a).mp ha
    simp only [List.mem_cons, List.mem_append] at hmem' ⊢
    tauto
  have hvlive : v ∈ live := h.live v (by simp)
  have hp : p ∈ live := hlive p List.mem_cons_self
  have hn : l.next v ∈ live := hlive _ hnext
  have hne : ∀ a ∈ p :: (after ++ init), a ≠ v := fun a ha heq => hv (heq ▸ ha)
  refine ⟨{ next := Function.update (l.unlinked v).next v poison₁
            prev := Function.update (l.unlinked v).prev v poison₂ }, ?_, ?_⟩
  · simp only [Links.listDel, listDelEntry_eq hvlive (hprev ▸ hp) hn, setNext_of_live hvlive,
      setPrev_of_live hvlive, Option.bind_eq_bind, Option.bind_some]
  · refine ⟨?_, fun a ha => hlive a ((hmem a).mpr ha)⟩
    rw [hrotate]
    apply isRing_remove hring <;> dsimp only [Links.unlinked] <;> rw [hprev]
    · rw [Function.update_of_ne (hne p List.mem_cons_self), Function.update_self]
    · intro a _ hav hap
      rw [Function.update_of_ne hav, Function.update_of_ne hap]
    · rw [Function.update_of_ne (hne _ hnext), Function.update_self]
    · intro a _ hav han
      rw [Function.update_of_ne hav, Function.update_of_ne han]

/-- **`list_del_init` of the head leaves an empty list**, whatever was on it. -/
theorem Links.IsList.listDelInit (h : l.IsList live head entries) :
    ∃ l', l.listDelInit live head = some l' ∧ l'.IsList live head [] := by
  obtain ⟨init, last, hsplit, -, hprev⟩ := h.exists_last
  have hhead : head ∈ live := h.live head List.mem_cons_self
  have hlast : last ∈ live := h.live last (by simp [hsplit])
  have hnext : l.next head ∈ live := by
    obtain ⟨⟨b, m, hcons, hb, -, -⟩, -⟩ := isRing_cons h.ring
    apply h.live
    have hmem : b ∈ entries ++ [head] := by simp [hcons]
    rw [hb]
    simpa [or_comm] using hmem
  obtain ⟨l', hrun, hlist⟩ := initListHead_isList (l := l.unlinked head) hhead
  refine ⟨l', ?_, hlist⟩
  rw [Links.listDelInit, listDelEntry_eq hhead (hprev ▸ hlast) hnext, Option.bind_eq_bind,
    Option.bind_some, hrun]

end Rules

end Pnl.ListHeads
