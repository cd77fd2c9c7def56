import Mathlib.Data.List.Forall2
import Mathlib.Tactic.Tauto

/-!
# Runs of a system

A system takes one step per input. What is proved of one step carries over to runs of any length,
with a condition on the steps where the property needs one; and where the condition is exact for a
step it is exact for runs.
-/

namespace Pnl.Runs

variable {σ ι : Type*} (step : σ → ι → σ)

/-- The states of a run, the first and the last included. -/
def states (s : σ) (inputs : List ι) : List σ := inputs.scanl step s

def final (s : σ) (inputs : List ι) : σ := inputs.foldl step s

/-- Every step of the run meets `cond` in the state it starts from. -/
def StepsMeet (cond : σ → ι → Prop) : σ → List ι → Prop
  | _, [] => True
  | s, i :: inputs => cond s i ∧ StepsMeet cond (step s i) inputs

instance decidableStepsMeet (cond : σ → ι → Prop) [∀ s i, Decidable (cond s i)] :
    (s : σ) → (inputs : List ι) → Decidable (StepsMeet step cond s inputs)
  | _, [] => inferInstanceAs (Decidable True)
  | s, i :: inputs =>
      have := decidableStepsMeet cond (step s i) inputs
      inferInstanceAs (Decidable (cond s i ∧ StepsMeet step cond (step s i) inputs))

variable {step} {s : σ} {inputs : List ι}

theorem forall_states_iff {P : σ → Prop} :
    (∀ t ∈ states step s inputs, P t) ↔ P s ∧ StepsMeet step (fun s i => P (step s i)) s inputs := by
  induction inputs generalizing s with
  | nil => simp [states, StepsMeet]
  | cons i inputs ih =>
      have htail := ih (s := step s i)
      rw [states] at htail ⊢
      rw [List.scanl_cons, List.forall_mem_cons, htail, StepsMeet]

theorem final_mem_states : final step s inputs ∈ states step s inputs := by
  induction inputs generalizing s with
  | nil => simp [final, states]
  | cons i inputs ih =>
      rw [states, List.scanl_cons, List.mem_cons]
      exact Or.inr ih

theorem final_append (inputs inputs' : List ι) :
    final step s (inputs ++ inputs') = final step (final step s inputs) inputs' :=
  List.foldl_append

theorem stepsMeet_of_forall {cond : σ → ι → Prop} (h : ∀ s i, cond s i) :
    StepsMeet step cond s inputs := by
  induction inputs generalizing s with
  | nil => trivial
  | cons i inputs ih => exact ⟨h s i, ih⟩

theorem stepsMeet_of_mem {cond : σ → ι → Prop} (h : ∀ s, ∀ i ∈ inputs, cond s i) :
    StepsMeet step cond s inputs := by
  induction inputs generalizing s with
  | nil => trivial
  | cons i inputs ih =>
      refine ⟨h s i List.mem_cons_self, ih fun t j hj => ?_⟩
      exact h t j (List.mem_cons_of_mem i hj)

theorem stepsMeet_and {cond cond' : σ → ι → Prop} :
    StepsMeet step (fun s i => cond s i ∧ cond' s i) s inputs
      ↔ StepsMeet step cond s inputs ∧ StepsMeet step cond' s inputs := by
  induction inputs generalizing s with
  | nil => simp [StepsMeet]
  | cons i inputs ih =>
      simp only [StepsMeet, ih]
      tauto

theorem stepsMeet_append {cond : σ → ι → Prop} {inputs' : List ι} :
    StepsMeet step cond s (inputs ++ inputs')
      ↔ StepsMeet step cond s inputs ∧ StepsMeet step cond (final step s inputs) inputs' := by
  induction inputs generalizing s with
  | nil => exact (and_iff_right trivial).symm
  | cons i inputs ih =>
      rw [List.cons_append, StepsMeet, ih, StepsMeet, and_assoc]
      rfl

theorem invariant {Inv : σ → Prop} {cond : σ → ι → Prop}
    (hkeep : ∀ s i, Inv s → cond s i → Inv (step s i)) (hinit : Inv s)
    (h : StepsMeet step cond s inputs) : ∀ t ∈ states step s inputs, Inv t := by
  induction inputs generalizing s with
  | nil => simpa [states] using hinit
  | cons i inputs ih =>
      rw [states, List.scanl_cons, List.forall_mem_cons]
      exact ⟨hinit, ih (hkeep s i hinit h.1) h.2⟩

theorem stepsMeet_of_inv {Inv : σ → Prop} {cond Good : σ → ι → Prop}
    (hkeep : ∀ s i, Inv s → cond s i → Inv (step s i))
    (hgood : ∀ s i, Inv s → cond s i → Good s i) (hinit : Inv s)
    (h : StepsMeet step cond s inputs) : StepsMeet step Good s inputs := by
  induction inputs generalizing s with
  | nil => trivial
  | cons i inputs ih => exact ⟨hgood s i hinit h.1, ih (hkeep s i hinit h.1) h.2⟩

/-- **Forward simulation**: what one step of each system preserves, their runs on the same inputs
preserve. -/
theorem simulation {τ : Type*} {step' : τ → ι → τ} {R : σ → τ → Prop} {cond : σ → ι → Prop}
    (hstep : ∀ s t i, R s t → cond s i → R (step s i) (step' t i)) {t : τ} (hinit : R s t)
    (h : StepsMeet step cond s inputs) : R (final step s inputs) (final step' t inputs) := by
  induction inputs generalizing s t with
  | nil => exact hinit
  | cons i inputs ih => exact ih (hstep s t i hinit h.1) h.2

/-- A run on translated inputs is a run of the system that translates them. -/
theorem final_map {κ : Type*} (f : κ → ι) (inputs : List κ) :
    final step s (inputs.map f) = final (fun s k => step s (f k)) s inputs :=
  List.foldl_map

theorem stepsMeet_map {κ : Type*} {cond : σ → ι → Prop} (f : κ → ι) {inputs : List κ} :
    StepsMeet step cond s (inputs.map f)
      ↔ StepsMeet (fun s k => step s (f k)) (fun s k => cond s (f k)) s inputs := by
  induction inputs generalizing s with
  | nil => rfl
  | cons k inputs ih => rw [List.map_cons, StepsMeet, StepsMeet, ih]

/-- **A condition exact for each step is exact for the run.** Until a step misses the condition the
invariant holds, so the first one that misses it is recognised. -/
theorem stepsMeet_iff {Inv : σ → Prop} {env Good cond : σ → ι → Prop}
    (hexact : ∀ s i, Inv s → env s i → (Good s i ↔ cond s i))
    (hkeep : ∀ s i, Inv s → env s i → cond s i → Inv (step s i)) (hinit : Inv s)
    (henv : StepsMeet step env s inputs) :
    StepsMeet step Good s inputs ↔ StepsMeet step cond s inputs := by
  induction inputs generalizing s with
  | nil => rfl
  | cons i inputs ih =>
      have hhead := hexact s i hinit henv.1
      constructor
      · rintro ⟨hgood, htail⟩
        have hcond := hhead.mp hgood
        exact ⟨hcond, (ih (hkeep s i hinit henv.1 hcond) henv.2).mp htail⟩
      · rintro ⟨hcond, htail⟩
        exact ⟨hhead.mpr hcond, (ih (hkeep s i hinit henv.1 hcond) henv.2).mpr htail⟩

section Exact

variable {Inv P : σ → Prop} {env cond : σ → ι → Prop}

theorem final_of_inv (hkeep : ∀ s i, Inv s → env s i → cond s i → Inv (step s i)) (hinit : Inv s)
    (henv : StepsMeet step env s inputs) (h : StepsMeet step cond s inputs) :
    Inv (final step s inputs) := by
  have hboth : StepsMeet step (fun s i => env s i ∧ cond s i) s inputs :=
    stepsMeet_and.mpr ⟨henv, h⟩
  exact invariant (fun s i hs hi => hkeep s i hs hi.1 hi.2) hinit hboth _ final_mem_states

/-- **A property of states holds all along a run exactly when every step meets the condition.** -/
theorem forall_states_iff_cond (hexact : ∀ s i, Inv s → env s i → (P (step s i) ↔ cond s i))
    (hkeep : ∀ s i, Inv s → env s i → cond s i → Inv (step s i)) (hgood : ∀ s, Inv s → P s)
    (hinit : Inv s) (henv : StepsMeet step env s inputs) :
    (∀ t ∈ states step s inputs, P t) ↔ StepsMeet step cond s inputs := by
  rw [forall_states_iff, and_iff_right (hgood s hinit)]
  exact stepsMeet_iff hexact hkeep hinit henv

/-- **What shows only at the end**: nothing that a step has spoilt is put right again, so the end is
as it should be exactly if the start was, every step met the condition, and the last state does. -/
theorem final_iff_cond {Q E : σ → Prop} (hkeep : ∀ s i, Inv s → env s i → Inv (step s i))
    (hexact : ∀ s i, Inv s → env s i → P s → (P (step s i) ↔ cond s i))
    (hback : ∀ s i, Inv s → env s i → P (step s i) → P s)
    (hend : ∀ s, Inv s → P s → (Q s ↔ E s)) (hlast : ∀ s, Inv s → Q s → P s) (hinit : Inv s)
    (henv : StepsMeet step env s inputs) :
    Q (final step s inputs) ↔ P s ∧ StepsMeet step cond s inputs ∧ E (final step s inputs) := by
  induction inputs generalizing s with
  | nil =>
      constructor
      · intro hQ
        have hP := hlast s hinit hQ
        exact ⟨hP, trivial, (hend s hinit hP).mp hQ⟩
      · exact fun h => (hend s hinit h.1).mpr h.2.2
  | cons i inputs ih =>
      have hrest : Q (final step s (i :: inputs)) ↔ _ := ih (hkeep s i hinit henv.1) henv.2
      rw [hrest]
      constructor
      · rintro ⟨hnext, htail, hE⟩
        have hP := hback s i hinit henv.1 hnext
        exact ⟨hP, ⟨(hexact s i hinit henv.1 hP).mp hnext, htail⟩, hE⟩
      · rintro ⟨hP, ⟨hcond, htail⟩, hE⟩
        exact ⟨(hexact s i hinit henv.1 hP).mpr hcond, htail, hE⟩

end Exact

/-! ### Two runs -/

variable (step) in
/-- What `obs` compares is the same at every point of runs on inputs that `rel` relates. -/
def Determined (rel : ι → ι → Prop) (obs : σ → σ → Prop) (s : σ) (inputs : List ι) : Prop :=
  ∀ inputs', List.Forall₂ rel inputs inputs' →
    ∀ n, obs (final step s (inputs.take n)) (final step s (inputs'.take n))

theorem stepsMeet_const_iff {p : ι → Prop} :
    StepsMeet step (fun _ i => p i) s inputs ↔ ∀ i ∈ inputs, p i := by
  induction inputs generalizing s with
  | nil => simp [StepsMeet]
  | cons i inputs ih => rw [StepsMeet, ih, List.forall_mem_cons]

section Determined

variable {Inv : σ → Prop} {env cond : σ → ι → Prop} {rel : ι → ι → Prop} {obs : σ → σ → Prop}

theorem determined_cons_iff (hrel : ∀ i, rel i i) (hobs : ∀ s, obs s s) {i : ι}
    (hsame : ∀ i', rel i i' → step s i = step s i') :
    Determined step rel obs s (i :: inputs) ↔ Determined step rel obs (step s i) inputs := by
  constructor
  · intro h inputs' hinputs n
    exact h (i :: inputs') (List.Forall₂.cons (hrel i) hinputs) (n + 1)
  · rintro h _ (_ | ⟨hi, hinputs⟩) n
    cases n with
    | zero => exact hobs s
    | succ n =>
        rw [List.take_succ_cons, List.take_succ_cons, final, final, List.foldl_cons,
          List.foldl_cons, ← hsame _ hi]
        exact h _ hinputs n

/-- **Unwinding.** A step that meets the condition leaves the same state whatever the inputs hide;
one that misses it is seen at once. -/
theorem determined_iff (hrel : ∀ i, rel i i) (hobs : ∀ s, obs s s)
    (hkeep : ∀ s i, Inv s → env s i → cond s i → Inv (step s i))
    (hsame : ∀ s i i', Inv s → env s i → cond s i → rel i i' → step s i = step s i')
    (hseen : ∀ s i, Inv s → env s i → (∀ i', rel i i' → obs (step s i) (step s i')) → cond s i)
    (hinit : Inv s) (henv : StepsMeet step env s inputs) :
    Determined step rel obs s inputs ↔ StepsMeet step cond s inputs := by
  induction inputs generalizing s with
  | nil =>
      refine iff_of_true ?_ trivial
      rintro _ ⟨⟩ n
      exact hobs _
  | cons i inputs ih =>
      have hcons : cond s i → (Determined step rel obs s (i :: inputs)
          ↔ Determined step rel obs (step s i) inputs) := fun hcond =>
        determined_cons_iff hrel hobs fun i' => hsame s i i' hinit henv.1 hcond
      constructor
      · intro h
        have hcond : cond s i := by
          apply hseen s i hinit henv.1
          intro i' hi
          exact h (i' :: inputs) (List.Forall₂.cons hi (List.forall₂_same.mpr fun j _ => hrel j)) 1
        refine ⟨hcond, ?_⟩
        exact (ih (hkeep s i hinit henv.1 hcond) henv.2).mp ((hcons hcond).mp h)
      · rintro ⟨hcond, htail⟩
        exact (hcons hcond).mpr ((ih (hkeep s i hinit henv.1 hcond) henv.2).mpr htail)

end Determined

end Pnl.Runs
