import Mathlib.Data.List.TakeWhile
import Pnl.CronFunc
import Pnl.Lib.Runs

/-!
# What an interposed `read` changes

Under `libsym.so` the program is the one with the C library in which `i` was typed for every `r`, as
long as reads succeed. That is always long enough exactly when an `e` comes first: at the end of the
input the program returns -1 with the C library, and never does with `libsym.so`, which drops what
the real `read` returned. Alarms may come anywhere.
-/

namespace Pnl.CronFunc

open Runs

/-- `i` for every `r`. -/
def typed (input : List (Option UInt8)) : List (Option UInt8) :=
  input.map (Option.map fun c => if c = 114 then 105 else c)

/-- An `e` comes before a read fails. -/
def Quits (input : List (Option UInt8)) : Prop := some 101 ∈ input.takeWhile Option.isSome

instance (input : List (Option UInt8)) : Decidable (Quits input) :=
  inferInstanceAs (Decidable (some 101 ∈ input.takeWhile Option.isSome))

theorem quits_cons {b : UInt8} {input : List (Option UInt8)} :
    Quits (some b :: input) ↔ b = 101 ∨ Quits input := by
  rw [Quits, List.takeWhile_cons_of_pos (by simp), List.mem_cons, Option.some_inj]
  exact or_congr_left eq_comm

theorem not_quits_nil : ¬ Quits [] := List.not_mem_nil

theorem not_quits_none (input : List (Option UInt8)) : ¬ Quits (none :: input) := by
  rw [Quits, List.takeWhile_cons_of_neg (by simp)]
  exact List.not_mem_nil

/-! ### Agreeing -/

/-- The process will return 0, or has. -/
def Process.Leaves (p : Process) : Prop :=
  match p.pc with
  | .top => Quits p.input
  | .read => Quits p.input
  | .switch => p.c = 101 ∨ Quits p.input
  | .returned ret => ret = 0

/-- The process with the other input. -/
def Process.retyped (p : Process) : Process := { p with input := typed p.input }

theorem retyped_handleSigalrm (p : Process) :
    p.handleSigalrm.retyped = p.retyped.handleSigalrm := by
  cases hpc : p.pc <;> simp [Process.handleSigalrm, Process.retyped, Process.print, hpc]

theorem leaves_handleSigalrm {p : Process} (h : p.Leaves) : p.handleSigalrm.Leaves := by
  cases hpc : p.pc with
  | returned ret => simpa [Process.handleSigalrm, hpc] using h
  | _ => simpa [Process.Leaves, Process.handleSigalrm, Process.print, hpc] using h

theorem step_handleRead {p : Process} (hpc : p.pc = .read) {b : UInt8}
    {input : List (Option UInt8)} (hinput : p.input = some b :: input) (c : UInt8) :
    p.step (handleRead c)
      = { p with pc := .switch, c := if b = 114 then 105 else b, input := input } := by
  simp [Process.step, hpc, hinput, handleRead, trueRead]

theorem step_trueRead {p : Process} (hpc : p.pc = .read) {b : UInt8} {input : List (Option UInt8)}
    (hinput : p.input = some b :: input) :
    p.step trueRead = { p with pc := .switch, c := b, input := input } := by
  simp [Process.step, hpc, hinput, trueRead]

/-- **A step of `main` is the same with both functions**, with `i` typed for `r` in one of them. -/
theorem retyped_step {p : Process} (h : p.Leaves) (c : UInt8) :
    (p.step (handleRead c)).retyped = p.retyped.step trueRead ∧ (p.step (handleRead c)).Leaves := by
  cases hpc : p.pc with
  | top =>
      rw [Process.Leaves, hpc] at h
      by_cases hc : p.c = 0
      · exact ⟨by simp [Process.step, Process.retyped, Process.print, hpc, hc],
          by simpa [Process.Leaves, Process.step, Process.print, hpc, hc] using h⟩
      · exact ⟨by simp [Process.step, Process.retyped, hpc, hc],
          by simpa [Process.Leaves, Process.step, hpc, hc] using h⟩
  | read =>
      rw [Process.Leaves, hpc] at h
      cases hinput : p.input with
      | nil => exact absurd (hinput ▸ h) not_quits_nil
      | cons b input =>
          cases b with
          | none => exact absurd (hinput ▸ h) (not_quits_none input)
          | some b =>
              rw [hinput, quits_cons] at h
              have hretyped : p.retyped.input
                  = some (if b = 114 then 105 else b) :: typed input := by
                simp [Process.retyped, hinput, typed]
              rw [step_handleRead hpc hinput, step_trueRead (p := p.retyped) hpc hretyped]
              refine ⟨rfl, ?_⟩
              rcases h with rfl | h
              · exact Or.inl rfl
              · exact Or.inr h
  | switch =>
      rw [Process.Leaves, hpc] at h
      refine ⟨?_, ?_⟩
      · by_cases hi : p.c = 105
        · simp [Process.step, Process.retyped, Process.print, hpc, hi]
        · by_cases hr : p.c = 114 <;> simp [Process.step, Process.retyped, Process.print, hpc, hi, hr]
      · by_cases he : p.c = 101
        · simp [Process.Leaves, Process.step, hpc, he]
        · have hquits := h.resolve_left he
          by_cases hi : p.c = 105
          · simpa [Process.Leaves, Process.step, Process.print, hpc, hi] using hquits
          · by_cases hr : p.c = 114 <;>
              simpa [Process.Leaves, Process.step, Process.print, hpc, hi, hr, he] using hquits
  | returned ret =>
      refine ⟨by simp [Process.step, Process.retyped, hpc], ?_⟩
      rw [Process.Leaves, hpc] at h
      simpa [Process.Leaves, Process.step, hpc] using h

/-! ### Disagreeing -/

/-- `libsym.so` never lets the program fail. -/
theorem step_handleRead_ne (p : Process) (c : UInt8) (h : p.pc ≠ .returned (-1)) :
    (p.step (handleRead c)).pc ≠ .returned (-1) := by
  cases hpc : p.pc with
  | top => simp [Process.step, hpc]
  | read => simp [Process.step, hpc, handleRead]
  | switch =>
      simp only [Process.step, hpc]
      split_ifs <;> simp
  | returned ret => simpa [Process.step, hpc] using h

theorem step_top {p : Process} (hpc : p.pc = .top) (read : List (Option UInt8) → UInt8 → Got) :
    (p.step read).pc = .read ∧ (p.step read).input = p.input := by
  by_cases hc : p.c = 0 <;> simp [Process.step, Process.print, hpc, hc]

theorem step_returned {p : Process} {ret : Int} (hpc : p.pc = .returned ret)
    (read : List (Option UInt8) → UInt8 → Got) : p.step read = p := by
  simp [Process.step, hpc]

/-- A command other than `e` leads back to the top of the loop. -/
theorem step_switch {p : Process} (hpc : p.pc = .switch) (hc : p.c ≠ 101)
    (read : List (Option UInt8) → UInt8 → Got) :
    (p.step read).pc = .top ∧ (p.step read).input = p.input := by
  by_cases hi : p.c = 105
  · simp [Process.step, Process.print, hpc, hi]
  · by_cases hr : p.c = 114 <;> simp [Process.step, Process.print, hpc, hi, hr, hc]

theorem step_read_fails {p : Process} (hpc : p.pc = .read)
    (hinput : p.input = [] ∨ ∃ input, p.input = none :: input) :
    (p.step trueRead).pc = .returned (-1) := by
  rcases hinput with hnil | ⟨input, hnone⟩
  · simp [Process.step, hpc, hnil, trueRead]
  · simp [Process.step, hpc, hnone, trueRead]

/-- With the C library the program fails if nobody types an `e` in time. -/
theorem fails_trueRead {p : Process} (hpc : p.pc = .top) (hquits : ¬ Quits p.input) :
    ∃ n, (final (happen fun _ => trueRead) p (List.replicate n (.main 0))).pc = .returned (-1) := by
  induction hinput : p.input generalizing p with
  | nil =>
      obtain ⟨hread, hsame⟩ := step_top hpc trueRead
      exact ⟨2, step_read_fails hread (Or.inl (hsame.trans hinput))⟩
  | cons b input ih =>
      obtain ⟨hread, hsame⟩ := step_top hpc trueRead
      rw [hinput] at hsame hquits
      cases b with
      | none => exact ⟨2, step_read_fails hread (Or.inr ⟨input, hsame⟩)⟩
      | some b =>
          obtain ⟨hb, hrest⟩ := not_or.mp (mt quits_cons.mpr hquits)
          -- three steps, and the loop has taken the command
          have hgot := step_trueRead hread hsame
          set p₂ := (p.step trueRead).step trueRead with hp₂
          have hc : p₂.c ≠ 101 := by rwa [hgot]
          obtain ⟨htop, hinput₂⟩ := step_switch (p := p₂) (by rw [hgot]) hc trueRead
          have hinput₃ : (p₂.step trueRead).input = input := by rw [hinput₂, hgot]
          obtain ⟨n, hn⟩ := ih htop (hinput₃ ▸ hrest) hinput₃
          exact ⟨n + 3, hn⟩

/-! ### Runs -/

def run (read : UInt8 → List (Option UInt8) → UInt8 → Got) (input : List (Option UInt8))
    (events : List Event) : Process :=
  final (happen read) { input := input } events

theorem pc_handleSigalrm (p : Process) : p.handleSigalrm.pc = p.pc := by
  cases hpc : p.pc <;> simp [Process.handleSigalrm, Process.print, hpc]

theorem handleRead_never_fails (input : List (Option UInt8)) (events : List Event) :
    (run handleRead input events).pc ≠ .returned (-1) := by
  have hkeep : ∀ (p : Process) (event : Event), p.pc ≠ .returned (-1) → True →
      (happen handleRead p event).pc ≠ .returned (-1) := by
    intro p event hp _
    cases event with
    | main c => exact step_handleRead_ne p c hp
    | sigalrm => rwa [happen, pc_handleSigalrm]
  have hinit : ({ input := input } : Process).pc ≠ .returned (-1) := by simp
  exact invariant hkeep hinit (stepsMeet_of_forall fun _ _ => trivial) _ final_mem_states

theorem run_retyped {input : List (Option UInt8)} (hquits : Quits input) (events : List Event) :
    (run handleRead input events).retyped = run (fun _ => trueRead) (typed input) events := by
  have hstep : ∀ (p q : Process) (event : Event), p.retyped = q ∧ p.Leaves → True →
      (happen handleRead p event).retyped = happen (fun _ => trueRead) q event
        ∧ (happen handleRead p event).Leaves := by
    rintro p q event ⟨rfl, hleaves⟩ -
    cases event with
    | main c => exact retyped_step hleaves c
    | sigalrm => exact ⟨retyped_handleSigalrm p, leaves_handleSigalrm hleaves⟩
  have hinit : ({ input := input } : Process).retyped = { input := typed input }
      ∧ ({ input := input } : Process).Leaves := ⟨rfl, hquits⟩
  exact (simulation hstep hinit (stepsMeet_of_forall fun _ _ => trivial)).1

theorem quits_typed (input : List (Option UInt8)) : Quits (typed input) ↔ Quits input := by
  induction input with
  | nil => rfl
  | cons b input ih =>
      cases b with
      | none => exact iff_of_false (not_quits_none _) (not_quits_none _)
      | some b =>
          have hb : (if b = 114 then 105 else b) = 101 ↔ b = 101 := by
            split_ifs with hr
            · subst hr
              decide
            · rfl
          exact quits_cons.trans ((or_congr hb ih).trans quits_cons.symm)

theorem pc_of_seen {p : Process} {ret : Int} (h : p.seen.2 = some ret) : p.pc = .returned ret := by
  cases hpc : p.pc <;> simp_all [Process.seen]

/-- **Under `libsym.so` the program does, at every moment and wherever the alarms fall, what it does
with the C library when `i` is typed for `r`, exactly if an `e` is typed before a read fails.** It
never returns -1. -/
theorem handleRead_agrees_iff (input : List (Option UInt8)) :
    ((∀ events,
        (run handleRead input events).seen = (run (fun _ => trueRead) (typed input) events).seen)
      ↔ Quits input)
      ∧ ∀ events, (run handleRead input events).pc ≠ .returned (-1) := by
  refine ⟨?_, handleRead_never_fails input⟩
  constructor
  · intro hagree
    by_contra hquits
    rw [← quits_typed] at hquits
    obtain ⟨n, hfails⟩ := fails_trueRead (p := { input := typed input }) rfl hquits
    have hsame := congrArg Prod.snd (hagree (List.replicate n (.main 0)))
    have hfailed : (run (fun _ => trueRead) (typed input) (List.replicate n (.main 0))).seen.2
        = some (-1) := by
      rw [Process.seen, run, hfails]
    exact handleRead_never_fails input _ (pc_of_seen (hsame.trans hfailed))
  · intro hquits events
    rw [← run_retyped hquits events]
    rfl

/-! ### The read of tchao.c -/

/-- Where `main` is after `n` steps when every `read` gives it an `e`. -/
def leaving : Nat → Pc
  | 0 => .top
  | 1 => .read
  | 2 => .switch
  | _ => .returned 0

structure Process.LeavesAt (input : List (Option UInt8)) (n : Nat) (p : Process) : Prop where
  pc : p.pc = leaving n
  input : p.input = input
  c : 2 ≤ n → p.c = 101

section Leaving

variable {input : List (Option UInt8)} {n : Nat} {p : Process} (h : p.LeavesAt input n)

include h

theorem Process.LeavesAt.step : (p.step tchaoRead).LeavesAt input (n + 1) := by
  obtain ⟨hpc, hinput, hc⟩ := h
  match n, hpc, hc with
  | 0, hpc, _ =>
      obtain ⟨hread, hsame⟩ := step_top hpc tchaoRead
      exact ⟨hread, hsame.trans hinput, fun h => absurd h (by decide)⟩
  | 1, hpc, _ => constructor <;> simp [Process.step, tchaoRead, leaving, hpc, hinput]
  | 2, hpc, hc =>
      have he := hc le_rfl
      constructor <;> simp [Process.step, leaving, hpc, hinput, he]
  | n + 3, hpc, hc =>
      rw [step_returned hpc]
      exact ⟨hpc, hinput, fun _ => hc (by omega)⟩

theorem Process.LeavesAt.handleSigalrm : p.handleSigalrm.LeavesAt input n := by
  obtain ⟨hpc, hinput, hc⟩ := h
  refine ⟨(pc_handleSigalrm p).trans hpc, ?_, fun htwo => ?_⟩
  · cases hat : p.pc <;> simpa [Process.handleSigalrm, Process.print, hat] using hinput
  · cases hat : p.pc <;> simpa [Process.handleSigalrm, Process.print, hat] using hc htwo

theorem Process.LeavesAt.final (events : List Event) :
    (Runs.final (happen fun _ => tchaoRead) p events).LeavesAt input
      (n + events.countP (· ≠ .sigalrm)) := by
  induction events generalizing n p with
  | nil => exact h
  | cons event events ih =>
      cases event with
      | main c =>
          have hcount : n + (Event.main c :: events).countP (· ≠ .sigalrm)
              = n + 1 + events.countP (· ≠ .sigalrm) := by
            rw [List.countP_cons_of_pos (by simp)]
            omega
          rw [hcount]
          exact ih h.step
      | sigalrm =>
          rw [List.countP_cons_of_neg (by simp)]
          exact ih h.handleSigalrm

end Leaving

/-- **Under `libread.so` the program returns 0 at its third step**, whatever is typed and wherever the
alarms fall, and reads nothing of it. -/
theorem run_tchaoRead (input : List (Option UInt8)) (events : List Event) :
    (run (fun _ => tchaoRead) input events).pc = leaving (events.countP (· ≠ .sigalrm))
      ∧ (run (fun _ => tchaoRead) input events).input = input := by
  have hstart : ({ input := input } : Process).LeavesAt input 0 :=
    ⟨rfl, rfl, fun h => absurd h (by decide)⟩
  have hrun := hstart.final events
  rw [Nat.zero_add] at hrun
  exact ⟨hrun.pc, hrun.input⟩

end Pnl.CronFunc
