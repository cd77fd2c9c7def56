import Mathlib.Data.List.Basic

/-!
# While loops

A loop whose body may be undefined, run with a bound on its turns: it gives a state when it ends
within the bound and nothing went wrong. What a loop does does not depend on the bound, and a loop
that goes through the elements of a list, one a turn, gets to the end of it.
-/

namespace Pnl.Loops

variable {σ α : Type*} (cond : σ → Bool) (body : σ → Option σ)

def whileLoop : (turns : Nat) → σ → Option σ
  | 0, _ => none
  | turns + 1, s => if cond s then (body s).bind (whileLoop turns) else some s

/-- The loop ends, in `s'`. -/
def Ends (s s' : σ) : Prop := ∃ turns, whileLoop cond body turns s = some s'

/-- Some turns lead from `s` to `s'`. -/
def Reaches (s s' : σ) : Prop :=
  ∃ n, ∀ turns, whileLoop cond body (turns + n) s = whileLoop cond body turns s'

variable {cond body} {s s₁ s₂ : σ}

theorem Reaches.refl (s : σ) : Reaches cond body s s := ⟨0, fun _ => rfl⟩

theorem Reaches.trans (h : Reaches cond body s s₁) (h' : Reaches cond body s₁ s₂) :
    Reaches cond body s s₂ := by
  obtain ⟨n, hn⟩ := h
  obtain ⟨m, hm⟩ := h'
  refine ⟨m + n, fun turns => ?_⟩
  rw [← Nat.add_assoc, hn, hm]

theorem Reaches.turn (hcond : cond s = true) (hbody : body s = some s₁) :
    Reaches cond body s s₁ := by
  refine ⟨1, fun turns => ?_⟩
  rw [whileLoop, if_pos hcond, hbody, Option.bind_some]

theorem Reaches.ends (h : Reaches cond body s s₁) (hcond : cond s₁ = false) :
    Ends cond body s s₁ := by
  obtain ⟨n, hn⟩ := h
  refine ⟨1 + n, ?_⟩
  rw [hn, whileLoop, if_neg (by simp [hcond])]

/-- **A loop that takes one element of a list a turn.** -/
theorem exists_reaches {Inv : List α → σ → Prop}
    (hturn : ∀ a l s, Inv (a :: l) s → cond s = true ∧ ∃ s', body s = some s' ∧ Inv l s')
    {l : List α} (h : Inv l s) : ∃ s', Reaches cond body s s' ∧ Inv [] s' := by
  induction l generalizing s with
  | nil => exact ⟨s, Reaches.refl s, h⟩
  | cons a l ih =>
      obtain ⟨hcond, s₁, hbody, hinv⟩ := hturn a l s h
      obtain ⟨s', hreaches, hend⟩ := ih hinv
      exact ⟨s', (Reaches.turn hcond hbody).trans hreaches, hend⟩

/-- A counter that goes up by one for each element, whether or not it wraps around. -/
theorem count_cons (n : Int32) (a : α) (l : List α) :
    n + Int32.ofNat (a :: l).length = n + 1 + Int32.ofNat l.length := by
  have hone : Int32.ofNat (a :: l).length = Int32.ofNat l.length + 1 := Int32.ofNat_add l.length 1
  rw [hone, Int32.add_comm _ 1, Int32.add_assoc]

theorem whileLoop_add {turns : Nat} (h : whileLoop cond body turns s = some s₁) (n : Nat) :
    whileLoop cond body (turns + n) s = some s₁ := by
  induction turns generalizing s with
  | zero => simp [whileLoop] at h
  | succ turns ih =>
      rw [Nat.add_right_comm]
      rw [whileLoop] at h ⊢
      split_ifs at h ⊢ with hcond
      · obtain ⟨s', hbody, h⟩ := Option.bind_eq_some_iff.mp h
        rw [hbody, Option.bind_some]
        exact ih h
      · exact h

/-- **A loop ends in one state only**, whatever the bound. -/
theorem Ends.unique (h : Ends cond body s s₁) (h' : Ends cond body s s₂) : s₁ = s₂ := by
  obtain ⟨n, hn⟩ := h
  obtain ⟨m, hm⟩ := h'
  have hn' := whileLoop_add hn m
  have hm' := whileLoop_add hm n
  rw [Nat.add_comm, hn'] at hm'
  exact Option.some.inj hm'

end Pnl.Loops
