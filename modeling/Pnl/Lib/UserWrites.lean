import Pnl.Lib.Loops

/-!
# The loop around write

A program that has a buffer to write calls `write` until nothing is left, each time with what the
last call did not take. So a file that gives every call a meaning of its own is given the buffer as
one call only if it says that it took all of it.
-/

namespace Pnl.UserWrites

open Loops

/-- The file behind a loop, what is left to write, and the calls made so far. -/
structure Submission (σ : Type*) where
  file : σ
  rest : List UInt8
  submitted : List (List UInt8) := []

variable {σ : Type*} (write : (call : Nat) → σ → List UInt8 → σ × Nat)

def Submission.unfinished (s : Submission σ) : Bool := !s.rest.isEmpty

/-- `n = write(fd, buf, len); buf += n; len -= n;` -/
def Submission.submit (s : Submission σ) : Option (Submission σ) :=
  let (file, n) := write s.submitted.length s.file s.rest
  some { file := file, rest := s.rest.drop n, submitted := s.submitted ++ [s.rest] }

/-- The loop ends, and the buffer was submitted in one call. -/
def SubmittedOnce (file : σ) (buf : List UInt8) : Prop :=
  ∃ s, Ends Submission.unfinished (Submission.submit write) { file := file, rest := buf } s
    ∧ s.submitted = [buf]

variable {write}

theorem length_submitted_le {turns : Nat} {s s' : Submission σ}
    (h : whileLoop Submission.unfinished (Submission.submit write) turns s = some s') :
    s.submitted.length ≤ s'.submitted.length := by
  induction turns generalizing s with
  | zero => simp [whileLoop] at h
  | succ turns ih =>
      rw [whileLoop] at h
      split_ifs at h with hcond
      · obtain ⟨next, hsubmit, hrest⟩ := Option.bind_eq_some_iff.mp h
        obtain rfl := Option.some.inj hsubmit
        have hlater := ih hrest
        rw [List.length_append, List.length_singleton] at hlater
        omega
      · obtain rfl := Option.some.inj h
        exact Nat.le_refl _

theorem length_submitted_lt {s s' : Submission σ} (hrest : s.rest ≠ [])
    (h : Ends Submission.unfinished (Submission.submit write) s s') :
    s.submitted.length < s'.submitted.length := by
  obtain ⟨turns, hturns⟩ := h
  cases turns with
  | zero => simp [whileLoop] at hturns
  | succ turns =>
      have hcond : s.unfinished = true := by simp [Submission.unfinished, hrest]
      rw [whileLoop, if_pos hcond] at hturns
      obtain ⟨next, hsubmit, hlater⟩ := Option.bind_eq_some_iff.mp hturns
      obtain rfl := Option.some.inj hsubmit
      have hle := length_submitted_le hlater
      rw [List.length_append, List.length_singleton] at hle
      omega

/-- **A buffer is submitted once exactly when the call takes all of it.** -/
theorem submittedOnce_iff {file : σ} {buf : List UInt8} (hbuf : buf ≠ []) :
    SubmittedOnce write file buf ↔ buf.length ≤ (write 0 file buf).2 := by
  set first : Submission σ := { file := file, rest := buf } with hfirst
  set second : Submission σ :=
    { file := (write 0 file buf).1, rest := buf.drop (write 0 file buf).2, submitted := [buf] }
  have hcond : first.unfinished = true := by simp [Submission.unfinished, hfirst, hbuf]
  have hturn : Submission.submit write first = some second := rfl
  constructor
  · rintro ⟨s, ⟨turns, hturns⟩, honce⟩
    by_contra hshort
    have hleft : second.rest ≠ [] := by
      intro hnil
      exact hshort (List.drop_eq_nil_iff.mp hnil)
    cases turns with
    | zero => simp [whileLoop] at hturns
    | succ turns =>
        rw [whileLoop, if_pos hcond, hturn, Option.bind_some] at hturns
        have hmore := length_submitted_lt hleft ⟨turns, hturns⟩
        rw [honce] at hmore
        exact Nat.lt_irrefl _ hmore
  · intro hall
    have hdone : second.unfinished = false := by
      simp [Submission.unfinished, second, List.drop_eq_nil_iff.mpr hall]
    exact ⟨second, (Reaches.turn hcond hturn).ends hdone, rfl⟩

end Pnl.UserWrites
