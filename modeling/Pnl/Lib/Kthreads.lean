import Mathlib.Algebra.Ring.Int.Defs
import Mathlib.Algebra.Ring.Nat
import Mathlib.Data.Finset.Card
import Mathlib.Data.Finset.Insert
import Mathlib.Data.Finset.Erase

/-!
# Kernel threads

A component starts and stops kernel threads. Starting one gives a thread or an error pointer, and a
thread ends only when it is stopped; a stop of anything but a live thread is counted.

A component that keeps one thread in a slot, with a flag that says whether it runs, is right as long
as it starts a thread only while the flag is off, stops it only while the flag is on, and switches
the flag with the thread.
-/

namespace Pnl.Kthreads

/-- `IS_ERR`, for a pointer of 64 bits. -/
def isErr (ptr : Nat) : Bool := decide (2 ^ 64 - 4095 ≤ ptr ∧ ptr < 2 ^ 64)

/-- `PTR_ERR`. -/
def ptrErr (ptr : Nat) : Int := (ptr : Int) - 2 ^ 64

theorem ptrErr_ne_zero {ptr : Nat} (h : isErr ptr = true) : ptrErr ptr ≠ 0 := by
  have hptr : 2 ^ 64 - 4095 ≤ ptr ∧ ptr < 2 ^ 64 := of_decide_eq_true h
  rw [ptrErr]
  omega

structure Threads where
  alive : Finset Nat := ∅
  badStops : Nat := 0

/-- `kthread_run`, for the pointer it returns. -/
def Threads.run (t : Threads) (ptr : Nat) : Threads :=
  if isErr ptr then t else { t with alive := insert ptr t.alive }

/-- `kthread_stop`. -/
def Threads.stop (t : Threads) (ptr : Nat) : Threads :=
  if ptr ∈ t.alive then { t with alive := t.alive.erase ptr }
  else { t with badStops := t.badStops + 1 }

/-- At most one thread is alive, the flag says whether the one in the slot is, and no stop was
bad. -/
structure Threads.Right (t : Threads) (flag : Bool) (slot : Nat) : Prop where
  one : t.alive.card ≤ 1
  flag : flag = true ↔ slot ∈ t.alive
  stops : t.badStops = 0

/-- No thread is alive but the one in the slot. -/
structure Threads.Tracked (t : Threads) (flag : Bool) (slot : Nat) : Prop where
  alive : t.alive = if flag then {slot} else ∅
  stops : t.badStops = 0

section Tracked

variable {t : Threads} {slot : Nat}

theorem Threads.Tracked.right {flag : Bool} (h : t.Tracked flag slot) : t.Right flag slot := by
  refine ⟨?_, ?_, h.stops⟩
  · rw [h.alive]
    split_ifs <;> simp
  · rw [h.alive]
    split_ifs with hflag <;> simp [hflag]

theorem Threads.Tracked.run (h : t.Tracked false slot) {ptr : Nat} (hptr : isErr ptr = false) :
    (t.run ptr).Tracked true ptr := by
  rw [Threads.run, if_neg (by simp [hptr])]
  refine ⟨?_, h.stops⟩
  rw [h.alive]
  rfl

theorem Threads.Tracked.stop (h : t.Tracked true slot) : (t.stop slot).Tracked false slot := by
  have halive : t.alive = {slot} := h.alive
  rw [Threads.stop, if_pos (by simp [halive])]
  refine ⟨?_, h.stops⟩
  rw [halive, Finset.erase_singleton]
  rfl

/-- A start that failed leaves nothing alive that a flag could stand for. -/
theorem Threads.Tracked.not_right_run (h : t.Tracked false slot) {ptr : Nat}
    (hptr : isErr ptr = true) : ¬ (t.run ptr).Right true ptr := by
  intro hright
  have hmem := hright.flag.mp rfl
  rw [Threads.run, if_pos hptr, h.alive] at hmem
  exact Finset.notMem_empty _ hmem

theorem Threads.Tracked.badStops_stop (h : t.Tracked false slot) : (t.stop slot).badStops ≠ 0 := by
  rw [Threads.stop, if_neg (by simp [h.alive])]
  exact Nat.succ_ne_zero _

end Tracked

end Pnl.Kthreads
