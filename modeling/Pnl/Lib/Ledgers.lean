import Mathlib.Data.List.Count
import Mathlib.Logic.Function.Basic

/-!
# Ledgers

A component acquires resources of several kinds and has to release what it acquired. Its ledger
counts both for each kind. After any sequence of entries a count is what it was and how often the
kind occurs among them, so a balance is settled by counting in the list of what the component
does.
-/

namespace Pnl.Ledgers

structure Ledger (ρ : Type*) where
  acquired : ρ → Nat := fun _ => 0
  released : ρ → Nat := fun _ => 0

variable {ρ : Type*} [DecidableEq ρ]

def Ledger.acquire (l : Ledger ρ) (r : ρ) : Ledger ρ :=
  { l with acquired := Function.update l.acquired r (l.acquired r + 1) }

def Ledger.release (l : Ledger ρ) (r : ρ) : Ledger ρ :=
  { l with released := Function.update l.released r (l.released r + 1) }

def Ledger.acquireAll (l : Ledger ρ) (rs : List ρ) : Ledger ρ := rs.foldl Ledger.acquire l

def Ledger.releaseAll (l : Ledger ρ) (rs : List ρ) : Ledger ρ := rs.foldl Ledger.release l

theorem update_add_one (f : ρ → Nat) (r r' : ρ) :
    Function.update f r (f r + 1) r' = f r' + if r = r' then 1 else 0 := by
  by_cases h : r = r'
  · rw [h, Function.update_self, if_pos rfl]
  · rw [Function.update_of_ne (Ne.symm h), if_neg h, Nat.add_zero]

theorem acquired_acquire (l : Ledger ρ) (r r' : ρ) :
    (l.acquire r).acquired r' = l.acquired r' + if r = r' then 1 else 0 :=
  update_add_one l.acquired r r'

theorem released_release (l : Ledger ρ) (r r' : ρ) :
    (l.release r).released r' = l.released r' + if r = r' then 1 else 0 :=
  update_add_one l.released r r'

theorem releaseAll_append (l : Ledger ρ) (rs rs' : List ρ) :
    l.releaseAll (rs ++ rs') = (l.releaseAll rs).releaseAll rs' :=
  List.foldl_append

@[simp]
theorem released_acquireAll (l : Ledger ρ) (rs : List ρ) :
    (l.acquireAll rs).released = l.released := by
  induction rs generalizing l with
  | nil => rfl
  | cons r rs ih => exact ih (l.acquire r)

@[simp]
theorem acquired_releaseAll (l : Ledger ρ) (rs : List ρ) :
    (l.releaseAll rs).acquired = l.acquired := by
  induction rs generalizing l with
  | nil => rfl
  | cons r rs ih => exact ih (l.release r)

/-- **What a sequence of acquisitions adds.** -/
theorem acquired_acquireAll (l : Ledger ρ) (rs : List ρ) (r : ρ) :
    (l.acquireAll rs).acquired r = l.acquired r + rs.count r := by
  induction rs generalizing l with
  | nil => rfl
  | cons r' rs ih =>
      calc
        (l.acquireAll (r' :: rs)).acquired r = (l.acquire r').acquired r + rs.count r :=
          ih (l.acquire r')
        _ = l.acquired r + (if r' = r then 1 else 0) + rs.count r := by
          rw [acquired_acquire]
        _ = l.acquired r + (r' :: rs).count r := by
          rw [List.count_cons, Nat.add_assoc, Nat.add_comm (rs.count r)]
          simp only [beq_iff_eq]

/-- **What a sequence of releases adds.** -/
theorem released_releaseAll (l : Ledger ρ) (rs : List ρ) (r : ρ) :
    (l.releaseAll rs).released r = l.released r + rs.count r := by
  induction rs generalizing l with
  | nil => rfl
  | cons r' rs ih =>
      calc
        (l.releaseAll (r' :: rs)).released r = (l.release r').released r + rs.count r :=
          ih (l.release r')
        _ = l.released r + (if r' = r then 1 else 0) + rs.count r := by
          rw [released_release]
        _ = l.released r + (r' :: rs).count r := by
          rw [List.count_cons, Nat.add_assoc, Nat.add_comm (rs.count r)]
          simp only [beq_iff_eq]

/-- Held: acquired once and not released. -/
def Ledger.Holds (l : Ledger ρ) (r : ρ) : Prop := l.acquired r = 1 ∧ l.released r = 0

/-- Everything of this kind that was acquired has been released, once. -/
def Ledger.Settled (l : Ledger ρ) (r : ρ) : Prop := l.released r = l.acquired r ∧ l.released r ≤ 1

end Pnl.Ledgers
