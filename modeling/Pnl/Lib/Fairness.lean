import Mathlib.Data.Nat.Init
import Pnl.Lib.Runs

/-!
# Fair schedules

A schedule has an input for every moment, and is fair to some kinds of inputs if each of them comes
again and again. A system gets to its goal under every fair schedule if, in each state, one kind of
input helps: an input of that kind lowers a rank, and any other input lowers the rank too or leaves
rank and helpful kind as they are.
-/

namespace Pnl.Fairness

open Runs

variable {σ ι κ : Type*}

/-- The state after `n` moments. -/
def after (step : σ → ι → σ) (s : σ) (schedule : Nat → ι) (n : Nat) : σ :=
  final step s ((List.range n).map schedule)

theorem after_succ (step : σ → ι → σ) (s : σ) (schedule : Nat → ι) (n : Nat) :
    after step s schedule (n + 1) = step (after step s schedule n) (schedule n) := by
  rw [after, List.range_succ, List.map_append, final_append]
  rfl

def Fair (kind : ι → κ → Prop) (schedule : Nat → ι) : Prop :=
  ∀ k n, ∃ m, n ≤ m ∧ kind (schedule m) k

structure Ranked (step : σ → ι → σ) (kind : ι → κ → Prop) (cond : ι → Prop) (Inv Goal : σ → Prop)
    (rank : σ → Nat) (helpful : σ → κ) : Prop where
  keeps : ∀ s i, Inv s → cond i → Inv (step s i)
  helps : ∀ s i, Inv s → ¬ Goal s → cond i → kind i (helpful s) → rank (step s i) < rank s
  waits : ∀ s i, Inv s → ¬ Goal s → cond i →
    rank (step s i) < rank s ∨ rank (step s i) = rank s ∧ helpful (step s i) = helpful s

section Ranked

variable {step : σ → ι → σ} {kind : ι → κ → Prop} {cond : ι → Prop} {Inv Goal : σ → Prop}
  {rank : σ → Nat} {helpful : σ → κ} (h : Ranked step kind cond Inv Goal rank helpful)
  {s : σ} {schedule : Nat → ι} (hinit : Inv s) (hcond : ∀ n, cond (schedule n))

include h hinit hcond

theorem Ranked.inv (n : Nat) : Inv (after step s schedule n) := by
  induction n with
  | zero => exact hinit
  | succ n ih =>
      rw [after_succ]
      exact h.keeps _ _ ih (hcond n)

/-- From moment `n` on: the goal, a lower rank, or still the same kind that helps. -/
theorem Ranked.holds_out {n m : Nat} (hnm : n ≤ m) :
    (∃ k, Goal (after step s schedule k))
      ∨ (∃ k, rank (after step s schedule k) < rank (after step s schedule n))
      ∨ rank (after step s schedule m) = rank (after step s schedule n)
        ∧ helpful (after step s schedule m) = helpful (after step s schedule n) := by
  induction m, hnm using Nat.le_induction with
  | base => exact Or.inr (Or.inr ⟨rfl, rfl⟩)
  | succ m _ ih =>
      rcases ih with hgoal | hlower | ⟨hrank, hhelpful⟩
      · exact Or.inl hgoal
      · exact Or.inr (Or.inl hlower)
      · by_cases hgoal : Goal (after step s schedule m)
        · exact Or.inl ⟨m, hgoal⟩
        · have hstep := h.waits _ (schedule m) (h.inv hinit hcond m) hgoal (hcond m)
          rw [← after_succ step] at hstep
          rcases hstep with hlower | ⟨hrank', hhelpful'⟩
          · exact Or.inr (Or.inl ⟨m + 1, hrank ▸ hlower⟩)
          · exact Or.inr (Or.inr ⟨hrank'.trans hrank, hhelpful'.trans hhelpful⟩)

/-- **Under a fair schedule the goal is reached.** -/
theorem Ranked.reaches (hfair : Fair kind schedule) : ∃ n, Goal (after step s schedule n) := by
  suffices hlow : ∀ r n, rank (after step s schedule n) = r →
      ∃ k, Goal (after step s schedule k) from hlow _ 0 rfl
  intro r
  induction r using Nat.strongRecOn with
  | ind r ih =>
      intro n hr
      obtain ⟨m, hnm, hkind⟩ := hfair (helpful (after step s schedule n)) n
      rcases h.holds_out hinit hcond hnm with hgoal | ⟨k, hlower⟩ | ⟨hrank, hhelpful⟩
      · exact hgoal
      · exact ih _ (hr ▸ hlower) k rfl
      · by_cases hgoal : Goal (after step s schedule m)
        · exact ⟨m, hgoal⟩
        · have hlower := h.helps _ (schedule m) (h.inv hinit hcond m) hgoal (hcond m)
            (hhelpful ▸ hkind)
          rw [← after_succ step, hrank, hr] at hlower
          exact ih _ hlower (m + 1) rfl

end Ranked

end Pnl.Fairness
