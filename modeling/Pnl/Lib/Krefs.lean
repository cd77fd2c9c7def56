import Mathlib.Data.Finset.Insert
import Mathlib.Data.Finset.Erase
import Mathlib.Logic.Function.Basic

/-!
# Pools of counted objects

Objects of one kind, allocated and freed one at a time, each with a reference counter in the kernel's
style: a reference is taken unless the counter is zero, and whoever drops the last one is told to
release the object. Touching an object that is not allocated is counted as a fault and goes on.

Taking a reference on a live object and dropping it again leaves the pool as it was. That is all a
reader that minds its own references does to it.
-/

namespace Pnl.Krefs

structure Pool (α : Type*) where
  live : Finset α
  refs : α → Int32
  freed : List α := []
  faults : Nat := 0

variable {α : Type*} [DecidableEq α]

def Pool.touch (p : Pool α) (a : α) : Pool α :=
  if a ∈ p.live then p else { p with faults := p.faults + 1 }

def Pool.touchAll (p : Pool α) (as : List α) : Pool α := as.foldl Pool.touch p

def Pool.alloc (p : Pool α) (a : α) : Pool α := { p with live := insert a p.live }

def Pool.free (p : Pool α) (a : α) : Pool α :=
  let p := p.touch a
  { p with live := p.live.erase a, freed := a :: p.freed }

def Pool.init (p : Pool α) (a : α) : Pool α :=
  let p := p.touch a
  { p with refs := Function.update p.refs a 1 }

def Pool.getUnlessZero (p : Pool α) (a : α) : Pool α × Bool :=
  let p := p.touch a
  if p.refs a = 0 then (p, false)
  else ({ p with refs := Function.update p.refs a (p.refs a + 1) }, true)

/-- `kref_put`, up to the call of its release function: whether that is due. -/
def Pool.put (p : Pool α) (a : α) : Pool α × Bool :=
  let p := p.touch a
  ({ p with refs := Function.update p.refs a (p.refs a - 1) }, decide (p.refs a - 1 = 0))

/-- How many freed objects a store into `a` hits. -/
def Pool.freedHits (p : Pool α) (a : α) : Nat := if a ∉ p.live ∧ a ∈ p.freed then 1 else 0

theorem freedHits_eq_zero {p : Pool α} {a : α} : p.freedHits a = 0 ↔ a ∈ p.live ∨ a ∉ p.freed := by
  rw [Pool.freedHits, ite_eq_right_iff]
  tauto

theorem touch_live (p : Pool α) (a : α) : (p.touch a).live = p.live := by
  rw [Pool.touch]
  split_ifs <;> rfl

theorem getUnlessZero_live (p : Pool α) (a : α) : (p.getUnlessZero a).1.live = p.live := by
  rw [Pool.getUnlessZero]
  split_ifs <;> exact touch_live p a

section Live

variable {p : Pool α} {a : α} (ha : a ∈ p.live)

include ha

theorem touch_of_mem : p.touch a = p := if_pos ha

theorem free_of_mem : p.free a = { p with live := p.live.erase a, freed := a :: p.freed } := by
  rw [Pool.free, touch_of_mem ha]

theorem init_of_mem : p.init a = { p with refs := Function.update p.refs a 1 } := by
  rw [Pool.init, touch_of_mem ha]

theorem getUnlessZero_of_mem (href : p.refs a ≠ 0) :
    p.getUnlessZero a = ({ p with refs := Function.update p.refs a (p.refs a + 1) }, true) := by
  rw [Pool.getUnlessZero, touch_of_mem ha]
  exact if_neg href

theorem put_of_mem :
    p.put a = ({ p with refs := Function.update p.refs a (p.refs a - 1) },
      decide (p.refs a - 1 = 0)) := by
  rw [Pool.put, touch_of_mem ha]

/-- **Taking a reference and dropping it.** -/
theorem put_getUnlessZero (href : p.refs a ≠ 0) : (p.getUnlessZero a).1.put a = (p, false) := by
  have hcancel : p.refs a + 1 - 1 = p.refs a := Int32.add_sub_cancel _ _
  have hlive : a ∈ (p.getUnlessZero a).1.live := by
    rw [getUnlessZero_of_mem ha href]
    exact ha
  rw [put_of_mem hlive, getUnlessZero_of_mem ha href]
  simp only [Function.update_self, Function.update_idem, hcancel, Function.update_eq_self]
  rw [decide_eq_false href]

end Live

theorem touchAll_of_subset {p : Pool α} {as : List α} (h : ∀ a ∈ as, a ∈ p.live) :
    p.touchAll as = p := by
  induction as with
  | nil => rfl
  | cons a as ih =>
      rw [Pool.touchAll, List.foldl_cons, touch_of_mem (h a (by simp))]
      exact ih fun b hb => h b (by simp [hb])

end Pnl.Krefs
