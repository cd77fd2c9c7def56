import Mathlib.Data.List.GetD
import Mathlib.Logic.Function.Basic

/-!
# Strings in memory

A string is what stands in memory from an address on up to the first zero byte. `strcpy` copies one
byte a turn until it has copied a zero. It asks neither where its destination ends nor whether it
writes over its source; as long as it does not do the latter, it leaves the string at its
destination and all other bytes as they were.
-/

namespace Pnl.CStrings

abbrev Memory := Nat → UInt8

/-- The memory with these bytes from `p` on. -/
def put (m : Memory) (p : Nat) : List UInt8 → Memory
  | [] => m
  | b :: bytes => put (Function.update m p b) (p + 1) bytes

/-- `while ((*dest++ = *src++) != '\0');`, with a bound on its turns. -/
def strcpy : (turns : Nat) → Memory → (dest src : Nat) → Option Memory
  | 0, _, _, _ => none
  | turns + 1, m, dest, src =>
      let m' := Function.update m dest (m src)
      if m src = 0 then some m' else strcpy turns m' (dest + 1) (src + 1)

structure IsString (m : Memory) (p : Nat) (s : List UInt8) : Prop where
  notMem : 0 ∉ s
  bytes : ∀ i (hi : i < s.length), m (p + i) = s[i]
  ends : m (p + s.length) = 0

variable {m m' : Memory} {p x : Nat} {s : List UInt8}

/-! ### Bytes that were put -/

theorem put_apply (m : Memory) (p : Nat) (bytes : List UInt8) (x : Nat) :
    put m p bytes x = if p ≤ x ∧ x < p + bytes.length then bytes.getD (x - p) 0 else m x := by
  induction bytes generalizing m p with
  | nil => rw [put, if_neg (by rw [List.length_nil]; omega)]
  | cons b bytes ih =>
      rw [put, ih, List.length_cons]
      by_cases hx : x = p
      · subst hx
        rw [if_neg (by omega), if_pos (by omega), Function.update_self, Nat.sub_self,
          List.getD_cons_zero]
      · rw [Function.update_of_ne hx]
        by_cases hin : p + 1 ≤ x ∧ x < p + 1 + bytes.length
        · rw [if_pos hin, if_pos (by omega), show x - p = x - (p + 1) + 1 by omega,
            List.getD_cons_succ]
        · rw [if_neg hin, if_neg (by omega)]

theorem put_of_outside {bytes : List UInt8} (hx : x < p ∨ p + bytes.length ≤ x) :
    put m p bytes x = m x := by
  rw [put_apply, if_neg (by omega)]

theorem put_add {bytes : List UInt8} {i : Nat} (hi : i < bytes.length) :
    put m p bytes (p + i) = bytes[i] := by
  rw [put_apply, if_pos (by omega), Nat.add_sub_cancel_left, List.getD_eq_getElem _ _ hi]

/-! ### Strings -/

theorem IsString.congr (h : IsString m p s) (hsame : ∀ i ≤ s.length, m' (p + i) = m (p + i)) :
    IsString m' p s where
  notMem := h.notMem
  bytes i hi := (hsame i (Nat.le_of_lt hi)).trans (h.bytes i hi)
  ends := (hsame s.length (Nat.le_refl _)).trans h.ends

theorem IsString.tail {b : UInt8} (h : IsString m p (b :: s)) : IsString m (p + 1) s where
  notMem hmem := h.notMem (List.mem_cons_of_mem b hmem)
  bytes i hi := by
    have hbyte := h.bytes (i + 1) (Nat.succ_lt_succ hi)
    have haddr : p + 1 + i = p + (i + 1) := by omega
    rw [haddr]
    exact hbyte
  ends := by
    have hends := h.ends
    rwa [List.length_cons, Nat.add_comm s.length 1, ← Nat.add_assoc] at hends

/-- The byte `i` of a string is not zero, and there is none after the first zero. -/
theorem IsString.length_le (h : IsString m p s) {i : Nat} (hzero : m (p + i) = 0) :
    s.length ≤ i := by
  by_contra hlt
  have hi : i < s.length := by omega
  apply h.notMem
  rw [← hzero, h.bytes i hi]
  exact List.getElem_mem hi

/-- **An address has one string.** -/
theorem IsString.unique {t : List UInt8} (h : IsString m p s) (h' : IsString m p t) : s = t := by
  have hlength : s.length = t.length := Nat.le_antisymm (h.length_le h'.ends) (h'.length_le h.ends)
  apply List.ext_getElem hlength
  intro i hi hi'
  rw [← h.bytes i hi, h'.bytes i hi']

theorem IsString.agree (h : IsString m p s) (h' : IsString m' p s) {i : Nat} (hi : i ≤ s.length) :
    m (p + i) = m' (p + i) := by
  obtain rfl | hlt := Nat.eq_or_lt_of_le hi
  · rw [h.ends, h'.ends]
  · rw [h.bytes i hlt, h'.bytes i hlt]

theorem IsString.drop (h : IsString m p s) {k : Nat} (hk : k ≤ s.length) :
    IsString m (p + k) (s.drop k) := by
  induction k with
  | zero => exact h
  | succ k ih =>
      rw [← List.drop_drop, ← Nat.add_assoc]
      have hcons := ih (Nat.le_of_lt hk)
      rw [List.drop_eq_getElem_cons hk] at hcons
      rw [List.drop_drop]
      exact hcons.tail

theorem exists_isString {n : Nat} (hzero : m (p + n) = 0) : ∃ s, IsString m p s ∧ s.length ≤ n := by
  induction n generalizing p with
  | zero => exact ⟨[], ⟨List.not_mem_nil, fun i hi => absurd hi (Nat.not_lt_zero i), hzero⟩,
      Nat.le_refl 0⟩
  | succ n ih =>
      by_cases hfirst : m p = 0
      · exact ⟨[], ⟨List.not_mem_nil, fun i hi => absurd hi (Nat.not_lt_zero i), hfirst⟩,
          Nat.zero_le _⟩
      · obtain ⟨s, hs, hlength⟩ := ih (p := p + 1) (by rw [Nat.add_assoc, Nat.add_comm 1 n, hzero])
        refine ⟨m p :: s, ⟨?_, ?_, ?_⟩, Nat.succ_le_succ hlength⟩
        · rw [List.mem_cons, not_or]
          exact ⟨fun heq => hfirst heq.symm, hs.notMem⟩
        · intro i hi
          cases i with
          | zero => rfl
          | succ i =>
              rw [List.getElem_cons_succ, ← hs.bytes i (Nat.lt_of_succ_lt_succ hi), Nat.add_assoc,
                Nat.add_comm 1 i]
        · rw [List.length_cons, ← hs.ends, Nat.add_assoc, Nat.add_comm 1]

theorem isString_put (m : Memory) (p : Nat) (hs : 0 ∉ s) : IsString (put m p (s ++ [0])) p s where
  notMem := hs
  bytes i hi := by
    rw [put_add (by rw [List.length_append]; omega), List.getElem_append_left hi]
  ends := by
    rw [put_add (by simp)]
    simp

theorem put_string_of_outside (hx : x < p ∨ p + s.length < x) : put m p (s ++ [0]) x = m x := by
  apply put_of_outside
  rw [List.length_append, List.length_singleton]
  omega

/-! ### Copying -/

/-- **What `strcpy` leaves** when the byte it writes is never one that it has still to read. -/
theorem strcpy_eq (h : IsString m p s) {dest : Nat} (happart : dest ≤ p ∨ p + s.length < dest)
    (turns : Nat) :
    strcpy turns m dest p = if s.length < turns then some (put m dest (s ++ [0])) else none := by
  induction s generalizing m p dest turns with
  | nil =>
      have hzero : m p = 0 := h.ends
      cases turns with
      | zero => rfl
      | succ turns =>
          rw [strcpy, if_pos hzero, hzero, if_pos (by simp)]
          rfl
  | cons b s ih =>
      have hb : m p = b := h.bytes 0 (Nat.succ_pos _)
      have hne : b ≠ 0 := fun heq => h.notMem (heq ▸ List.mem_cons_self)
      rw [List.length_cons] at happart
      cases turns with
      | zero => rfl
      | succ turns =>
          -- the rest of the source is not written to
          have htail : IsString (Function.update m dest b) (p + 1) s := by
            refine h.tail.congr fun i hi => ?_
            exact Function.update_of_ne (by omega) _ _
          rw [strcpy, hb, if_neg hne, ih htail (by omega)]
          simp only [List.length_cons, Nat.succ_lt_succ_iff]
          rfl

theorem strcpy_iff (h : IsString m p s) {dest : Nat} (happart : dest ≤ p ∨ p + s.length < dest) :
    (∃ turns, strcpy turns m dest p = some m') ↔ m' = put m dest (s ++ [0]) := by
  constructor
  · rintro ⟨turns, hrun⟩
    rw [strcpy_eq h happart] at hrun
    split at hrun
    · exact (Option.some.inj hrun).symm
    · cases hrun
  · rintro rfl
    exact ⟨s.length + 1, by rw [strcpy_eq h happart, if_pos (Nat.lt_succ_self _)]⟩

end Pnl.CStrings
