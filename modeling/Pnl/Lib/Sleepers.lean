import Mathlib.Data.UInt
import Pnl.Lib.Runs

/-!
# Threads that sleep between turns

Until it is stopped, such a thread computes a timeout from a parameter that others may have changed
since the last turn, sleeps for it with `schedule_timeout`, leaves if that was cut short, and works.
The thread is a system with one step per turn; what the kernel answers during a turn is the input.

The timeouts are kept in order. A timeout whose computation divides by zero is none, and the thread
dies of it.
-/

namespace Pnl.Sleepers

open Runs

def eintr : Int32 := 4

/-- `x / y` of two `unsigned`. -/
def div (x y : UInt32) : Option UInt32 := if y = 0 then none else some (x / y)

/-- `max(x, y)` of two `unsigned`. -/
def umax (x y : UInt32) : UInt32 := if y < x then x else y

inductive Status where
  | running
  | returned (ret : Int32)
  | killed
deriving DecidableEq, Repr

structure Sleeper (σ : Type*) where
  state : σ
  status : Status := .running
  timeouts : List (Option UInt32) := []

/-- The kernel's answers in one turn: of `kthread_should_stop`, the value of the parameter, of
`schedule_timeout`, and those to the work. -/
structure Turn (π ι : Type*) where
  shouldStop : Bool
  param : π
  left : Int64
  answers : ι

variable {σ π ι : Type*}

section Turn

variable (timeout : π → Option UInt32) (work : σ → ι → σ × Bool)

/-- One turn of `while (!kthread_should_stop())`. The work tells whether it comes to its end. -/
def Sleeper.turn (t : Sleeper σ) (i : Turn π ι) : Sleeper σ :=
  if t.status ≠ .running then t
  else if i.shouldStop then { t with status := .returned 0 }
  else
    let t := { t with timeouts := t.timeouts ++ [timeout i.param] }
    if timeout i.param = none then { t with status := .killed }
    else if i.left ≠ 0 then { t with status := .returned (-eintr) }
    else
      let (state, ends) := work t.state i.answers
      { t with state := state, status := if ends then .running else .killed }

end Turn

/-- In this turn the thread comes to its `schedule_timeout`. -/
def Sleeper.Reaches (t : Sleeper σ) (i : Turn π ι) : Prop :=
  t.status = .running ∧ i.shouldStop = false

/-- A timeout of one jiffy or more. -/
def Sleeps (timeout : Option UInt32) : Prop := ∃ n, timeout = some n ∧ 1 ≤ n

/-- The thread has slept in all of its turns. -/
def Sleeper.Rested (t : Sleeper σ) : Prop := ∀ timeout ∈ t.timeouts, Sleeps timeout

variable {timeout : π → Option UInt32} {work : σ → ι → σ × Bool} {t : Sleeper σ} {i : Turn π ι}

/-! ### Timeouts -/

theorem one_le_umax_iff {x y : UInt32} : 1 ≤ umax x y ↔ 1 ≤ x ∨ 1 ≤ y := by
  simp only [umax, UInt32.le_iff_toNat_le, UInt32.lt_iff_toNat_lt]
  split <;> omega

theorem sleeps_map_div_iff {x y : UInt32} {f : UInt32 → UInt32} :
    Sleeps ((div x y).map f) ↔ y ≠ 0 ∧ 1 ≤ f (x / y) := by
  by_cases hzero : y = 0
  · simp [Sleeps, div, hzero]
  · simp [Sleeps, div, hzero]

theorem one_le_div_div_iff {x y z : UInt32} (hy : y ≠ 0) (hz : z ≠ 0) :
    1 ≤ x / y / z ↔ z.toNat * y.toNat ≤ x.toNat := by
  have hpos : 0 < y.toNat * z.toNat := by
    have hy' : y.toNat ≠ 0 := fun h => hy (UInt32.toNat_inj.mp h)
    have hz' : z.toNat ≠ 0 := fun h => hz (UInt32.toNat_inj.mp h)
    exact Nat.mul_pos (Nat.pos_of_ne_zero hy') (Nat.pos_of_ne_zero hz')
  have hquotient : (x / y / z).toNat = x.toNat / (y.toNat * z.toNat) := Nat.div_div_eq_div_mul _ _ _
  calc 1 ≤ x / y / z ↔ 1 ≤ (x / y / z).toNat := UInt32.le_iff_toNat_le
    _ ↔ 1 * (y.toNat * z.toNat) ≤ x.toNat := by rw [hquotient, Nat.le_div_iff_mul_le hpos]
    _ ↔ z.toNat * y.toNat ≤ x.toNat := by rw [Nat.one_mul, Nat.mul_comm]

/-! ### Turns -/

variable (timeout work) in
theorem turn_cases (t : Sleeper σ) (i : Turn π ι) :
    (¬ t.Reaches i ∧ (t.turn timeout work i).state = t.state
        ∧ (t.turn timeout work i).timeouts = t.timeouts) ∨
      (t.Reaches i ∧ (t.turn timeout work i).timeouts = t.timeouts ++ [timeout i.param]
        ∧ ((t.turn timeout work i).state = t.state
          ∨ (t.turn timeout work i).state = (work t.state i.answers).1)) := by
  unfold Sleeper.turn Sleeper.Reaches
  by_cases hstatus : t.status = .running
  · cases hstop : i.shouldStop with
    | true => exact Or.inl (by simp [hstatus])
    | false =>
        right
        by_cases hnone : timeout i.param = none
        · simp [hstatus, hnone]
        · by_cases hleft : i.left = 0
          · simp [hstatus, hnone, hleft]
          · simp [hstatus, hnone, hleft]
  · exact Or.inl (by simp [hstatus])

theorem rested_turn_iff (h : t.Rested) :
    (t.turn timeout work i).Rested ↔ (t.Reaches i → Sleeps (timeout i.param)) := by
  obtain ⟨hreach, -, htimeouts⟩ | ⟨hreach, htimeouts, -⟩ := turn_cases timeout work t i
  · exact iff_of_true (by rwa [Sleeper.Rested, htimeouts]) (fun h => absurd h hreach)
  · rw [Sleeper.Rested, htimeouts, List.forall_mem_append, List.forall_mem_singleton]
    constructor
    · rintro ⟨-, hsleeps⟩ -
      exact hsleeps
    · intro hsleeps
      exact ⟨h, hsleeps hreach⟩

/-- **A thread sleeps in every turn of a run exactly if its parameter is right in each turn that comes
to a timeout.** -/
theorem rested_iff {cond : π → Prop} (hcond : ∀ param, Sleeps (timeout param) ↔ cond param)
    {turns : List (Turn π ι)} (h : t.Rested) :
    (∀ u ∈ states (Sleeper.turn timeout work) t turns, u.Rested) ↔
      StepsMeet (Sleeper.turn timeout work) (fun u i => u.Reaches i → cond i.param) t turns := by
  have henv : StepsMeet (Sleeper.turn timeout work) (fun _ _ => True) t turns :=
    stepsMeet_of_forall fun _ _ => trivial
  have hturn (u : Sleeper σ) (i : Turn π ι) (hrested : u.Rested) :
      (u.turn timeout work i).Rested ↔ (u.Reaches i → cond i.param) := by
    rw [rested_turn_iff hrested, hcond]
  apply forall_states_iff_cond _ _ (fun _ hrested => hrested) h henv
  · intro u i hrested _
    exact hturn u i hrested
  · intro u i hrested _ hright
    exact (hturn u i hrested).2 hright

theorem rested_start (s : σ) : ({ state := s } : Sleeper σ).Rested :=
  fun _ hmem => absurd hmem List.not_mem_nil

/-- What the work keeps, the thread keeps. -/
theorem state_of_work (Inv : σ → Prop) (hwork : ∀ s answers, Inv s → Inv (work s answers).1)
    {turns : List (Turn π ι)} (h : Inv t.state) :
    ∀ u ∈ states (Sleeper.turn timeout work) t turns, Inv u.state := by
  have henv : StepsMeet (Sleeper.turn timeout work) (fun _ _ => True) t turns :=
    stepsMeet_of_forall fun _ _ => trivial
  have hkeep (u : Sleeper σ) (i : Turn π ι) (hu : Inv u.state) (_ : True) :
      Inv (u.turn timeout work i).state := by
    obtain ⟨-, hstate, -⟩ | ⟨-, -, hstate | hstate⟩ := turn_cases timeout work u i
    · rwa [hstate]
    · rwa [hstate]
    · rw [hstate]
      exact hwork u.state i.answers hu
  exact invariant hkeep h henv

end Pnl.Sleepers
