import Mathlib.Algebra.BigOperators.Group.List.Basic
import Mathlib.Tactic.Abel

/-!
# Increments of a sequence

The increments of a sequence add up to its last value less its first. When the sequence is cut into
groups, each increment is one of a group or the gap between a group and the next.
-/

namespace Pnl.Telescopes

variable {α : Type*}

def increments [Sub α] (xs : List α) : List α := List.zipWith (fun x y => y - x) xs xs.tail

/-- From the last value of each group to the first of the next. -/
def gaps [Sub α] (groups : List (List α)) : List α :=
  (groups.zip groups.tail).filterMap fun pair => do return (← pair.2.head?) - (← pair.1.getLast?)

section Sub

variable [Sub α] {x y : α} {xs ys : List α} {groups : List (List α)}

theorem increments_cons (hy : ys.head? = some y) :
    increments (x :: ys) = (y - x) :: increments ys := by
  obtain ⟨ys, rfl⟩ := List.head?_eq_some_iff.mp hy
  rfl

theorem increments_append (hx : xs.getLast? = some x) (hy : ys.head? = some y) :
    increments (xs ++ ys) = increments xs ++ (y - x) :: increments ys := by
  induction xs with
  | nil => simp at hx
  | cons a xs ih =>
      cases xs with
      | nil =>
          obtain rfl : a = x := by simpa using hx
          exact increments_cons hy
      | cons b xs =>
          calc increments (a :: (b :: xs ++ ys))
            _ = (b - a) :: increments (b :: xs ++ ys) := rfl
            _ = (b - a) :: (increments (b :: xs) ++ (y - x) :: increments ys) := by
              rw [ih (by simpa using hx)]
            _ = increments (a :: b :: xs) ++ (y - x) :: increments ys := rfl

theorem gaps_cons (hx : xs.getLast? = some x) (hy : ys.head? = some y) :
    gaps (xs :: ys :: groups) = (y - x) :: gaps (ys :: groups) := by
  simp [gaps, hx, hy]

/-- **Each increment is in one group or between two**, as often as it occurs. -/
theorem increments_flatten_perm (hne : ∀ g ∈ groups, g ≠ []) :
    (increments groups.flatten).Perm (groups.flatMap increments ++ gaps groups) := by
  induction groups with
  | nil => simp [increments, gaps]
  | cons g groups ih =>
      cases groups with
      | nil => simp [gaps]
      | cons g' groups =>
          have hx := List.getLast?_eq_some_getLast (hne g (by simp))
          have hy := List.head?_eq_some_head (hne g' (by simp))
          have hhead : (g' :: groups).flatten.head? = some (g'.head (hne g' (by simp))) := by
            rw [List.flatten_cons, List.head?_append_of_ne_nil _ (hne g' (by simp)), hy]
          have htail := ih fun l hl => hne l (List.mem_cons_of_mem g hl)
          rw [List.flatten_cons, increments_append hx hhead, gaps_cons hx hy, List.flatMap_cons,
            List.append_assoc]
          apply List.Perm.append_left
          exact (htail.cons _).trans List.perm_middle.symm

end Sub

section AddCommGroup

variable [AddCommGroup α] {x y : α} {xs : List α} {groups : List (List α)}

/-- **The increments of a sequence telescope.** -/
theorem sum_increments (hx : xs.head? = some x) (hy : xs.getLast? = some y) :
    (increments xs).sum = y - x := by
  induction xs generalizing x with
  | nil => simp at hx
  | cons a xs ih =>
      obtain rfl : a = x := by simpa using hx
      cases xs with
      | nil =>
          obtain rfl : a = y := by simpa using hy
          simp [increments]
      | cons b xs =>
          have htail := ih (x := b) rfl (by simpa using hy)
          rw [increments_cons (y := b) rfl, List.sum_cons, htail]
          abel

theorem sum_groups (hne : ∀ g ∈ groups, g ≠ []) (hx : groups.flatten.head? = some x)
    (hy : groups.flatten.getLast? = some y) :
    (groups.map fun g => (increments g).sum).sum + (gaps groups).sum = y - x := by
  calc (groups.map fun g => (increments g).sum).sum + (gaps groups).sum
    _ = (groups.flatMap increments ++ gaps groups).sum := by
      rw [List.sum_append, List.flatMap, List.sum_flatten, List.map_map]
      rfl
    _ = (increments groups.flatten).sum := (increments_flatten_perm hne).sum_eq.symm
    _ = y - x := sum_increments hx hy

end AddCommGroup

end Pnl.Telescopes
