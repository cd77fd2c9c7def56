import Mathlib.Tactic.IntervalCases
import Pnl.DentryHash
import Pnl.Lib.Loops

/-!
# What the census says

The number of entries is right whatever `entry_size` starts with. The longest chain is right when it
starts with zero, or when the first chain and what is counted for it stay below another chain.
-/

namespace Pnl.DentryHash

def total (chains : List (List Dentry)) : Nat := (chains.map List.length).sum

def longest (chains : List (List Dentry)) : Nat := (chains.map List.length).foldr max 0

/-- What `hello_init` prints is right. -/
structure Exact (t : Table) (l : Locals) : Prop where
  cpt : l.cpt.toInt = total t.buckets
  maximum : l.maximum.toInt = longest t.buckets

/-- What `entry_size` starts with does not show. -/
def StartsHidden (entrySize : Int32) : List (List Dentry) → Prop
  | [] => True
  | first :: rest =>
      entrySize = 0 ∨ first.length ≤ longest rest
        ∧ (entrySize + Int32.ofNat first.length).toInt ≤ longest rest

instance decidableStartsHidden (entrySize : Int32) :
    (chains : List (List Dentry)) → Decidable (StartsHidden entrySize chains)
  | [] => inferInstanceAs (Decidable True)
  | _ :: _ => inferInstanceAs (Decidable (_ ∨ _ ∧ _))

/-! ### One turn -/

theorem toInt_ofNat {n : Nat} (h : n < 2 ^ 31) : (Int32.ofNat n).toInt = n :=
  Int32.toInt_ofNat_of_lt h

theorem toInt_maxOf (a b : Int32) : (maxOf a b).toInt = max a.toInt b.toInt := by
  rw [maxOf]
  split_ifs with hlt
  · have hlt' := Int32.lt_iff_toInt_lt.mp hlt
    omega
  · have hle := Int32.lt_iff_toInt_lt.not.mp hlt
    omega

theorem countChain_eq (l : Locals) (chain : List Dentry) :
    countChain l chain = { l with
      entrySize := l.entrySize + Int32.ofNat chain.length
      cpt := l.cpt + Int32.ofNat chain.length } := by
  induction chain generalizing l with
  | nil => simp [countChain]
  | cons entry chain ih =>
      rw [countChain, ih, Loops.count_cons, Loops.count_cons]

theorem countBucket_eq (l : Locals) (chain : List Dentry) :
    countBucket l chain =
      { entrySize := 0
        cpt := l.cpt + Int32.ofNat chain.length
        maximum := maxOf l.maximum (l.entrySize + Int32.ofNat chain.length) } := by
  rw [countBucket, countChain_eq]

/-! ### The loop -/

theorem total_cons (chain : List Dentry) (chains : List (List Dentry)) :
    total (chain :: chains) = chain.length + total chains := by
  rw [total, List.map_cons, List.sum_cons, total]

theorem longest_cons (chain : List Dentry) (chains : List (List Dentry)) :
    longest (chain :: chains) = max chain.length (longest chains) := by
  rw [longest, List.map_cons, List.foldr_cons, longest]

/-- **Turns that start with an empty count** add up the lengths and keep the largest. -/
theorem countBuckets_spec {chains : List (List Dentry)} {l : Locals} (hsize : l.entrySize = 0)
    (htotal : total chains < 2 ^ 31) :
    (chains.foldl countBucket l).cpt = l.cpt + Int32.ofNat (total chains)
      ∧ (0 ≤ l.maximum.toInt → (chains.foldl countBucket l).maximum.toInt
        = max l.maximum.toInt (longest chains)) := by
  induction chains generalizing l with
  | nil => simp [total, longest]
  | cons chain chains ih =>
      rw [total_cons] at htotal
      have hlength := toInt_ofNat (n := chain.length) (by omega)
      obtain ⟨hcpt, hmaximum⟩ := ih (l := countBucket l chain)
        (by rw [countBucket_eq]) (by omega)
      rw [List.foldl_cons]
      refine ⟨?_, fun hnonneg => ?_⟩
      · rw [hcpt, countBucket_eq, total_cons, Int32.ofNat_add, Int32.add_assoc]
      · have hmax : (countBucket l chain).maximum.toInt = max l.maximum.toInt chain.length := by
          rw [countBucket_eq, toInt_maxOf, hsize, Int32.zero_add, hlength]
        rw [hmaximum (by omega), hmax, longest_cons]
        omega

/-! ### The census -/

theorem size_of_lt {t : Table} (hshift : t.dHashShift < 31) :
    t.size.toNatClampNeg = t.buckets.length := by
  rw [t.length_buckets, Table.size]
  generalize t.dHashShift = d at hshift
  interval_cases d <;> rfl

theorem size_of_eq {t : Table} (hshift : t.dHashShift = 31) : t.size.toNatClampNeg = 0 := by
  rw [Table.size, hshift]
  rfl

/-- Either the whole table is walked and the start does not show, or the size is negative as an
`int` and there is nothing to count. -/
def Table.CountsRight (t : Table) (entrySize : Int32) : Prop :=
  t.dHashShift < 31 ∧ StartsHidden entrySize t.buckets
    ∨ t.dHashShift = 31 ∧ total t.buckets = 0

instance Table.decidableCountsRight (t : Table) (entrySize : Int32) :
    Decidable (t.CountsRight entrySize) :=
  inferInstanceAs (Decidable (_ ∧ _ ∨ _ ∧ _))

theorem longest_le_total (chains : List (List Dentry)) : longest chains ≤ total chains := by
  induction chains with
  | nil => exact Nat.le_refl 0
  | cons chain chains ih =>
      rw [longest_cons, total_cons]
      omega

/-- What the loops leave, from the first turn on. -/
theorem helloInit_spec {t : Table} (htotal : total t.buckets < 2 ^ 31) (entrySize : Int32)
    (hshift : t.dHashShift < 31) :
    ∃ first rest, t.buckets = first :: rest
      ∧ (helloInit t entrySize).cpt = Int32.ofNat (total t.buckets)
      ∧ (helloInit t entrySize).maximum.toInt
        = max (max 0 (entrySize + Int32.ofNat first.length).toInt) (longest rest) := by
  have hne : t.buckets ≠ [] := by
    intro hnil
    have hlength := t.length_buckets
    rw [hnil, List.length_nil] at hlength
    exact absurd hlength.symm (Nat.two_pow_pos _).ne'
  obtain ⟨first, rest, hbuckets⟩ := List.exists_cons_of_ne_nil hne
  have hrun : helloInit t entrySize
      = rest.foldl countBucket (countBucket { entrySize := entrySize } first) := by
    rw [helloInit, size_of_lt hshift, List.take_length, hbuckets, List.foldl_cons]
  rw [hbuckets, total_cons] at htotal
  obtain ⟨hcpt, hmaximum⟩ := countBuckets_spec
    (l := countBucket { entrySize := entrySize } first) (by rw [countBucket_eq])
    (by omega : total rest < 2 ^ 31)
  have hfirst : (countBucket { entrySize := entrySize } first).maximum.toInt
      = max 0 (entrySize + Int32.ofNat first.length).toInt := by
    rw [countBucket_eq, toInt_maxOf]
    rfl
  refine ⟨first, rest, hbuckets, ?_, ?_⟩
  · rw [hrun, hcpt, countBucket_eq, hbuckets, total_cons, Int32.ofNat_add, Int32.zero_add]
  · rw [hrun, hmaximum (by omega), hfirst]

theorem exact_of_shift {t : Table} (htotal : total t.buckets < 2 ^ 31) {entrySize : Int32}
    (hshift : t.dHashShift < 31) :
    Exact t (helloInit t entrySize) ↔ StartsHidden entrySize t.buckets := by
  obtain ⟨first, rest, hbuckets, hcpt, hmaximum⟩ := helloInit_spec htotal entrySize hshift
  have hfirst : (Int32.ofNat first.length).toInt = first.length := by
    apply toInt_ofNat
    rw [hbuckets, total_cons] at htotal
    omega
  -- a start that is not zero changes what is counted for the first chain
  have hzero : (entrySize + Int32.ofNat first.length).toInt = first.length ↔ entrySize = 0 := by
    rw [← hfirst, Int32.toInt_inj, Int32.add_eq_right]
  have hcount : (helloInit t entrySize).cpt.toInt = total t.buckets := by
    rw [hcpt, toInt_ofNat htotal]
  have hlongest := longest_cons first rest
  rw [hbuckets, StartsHidden, ← hzero]
  constructor
  · rintro ⟨-, hexact⟩
    rw [hmaximum, hbuckets, hlongest] at hexact
    omega
  · intro hhidden
    refine ⟨hcount, ?_⟩
    rw [hmaximum, hbuckets, hlongest]
    omega

/-- **The census is exact when the start of `entry_size` does not show**, and only then. -/
theorem exact_iff {t : Table} (htotal : total t.buckets < 2 ^ 31) (entrySize : Int32) :
    Exact t (helloInit t entrySize) ↔ t.CountsRight entrySize := by
  have hlt := t.shift_lt
  by_cases hshift : t.dHashShift < 31
  · rw [exact_of_shift htotal hshift, Table.CountsRight, and_iff_right hshift]
    exact (or_iff_left fun h => by omega).symm
  · have hlast : t.dHashShift = 31 := by omega
    have hrun : helloInit t entrySize = { entrySize := entrySize } := by
      rw [helloInit, size_of_eq hlast]
      rfl
    rw [hrun, Table.CountsRight, and_iff_right hlast, or_iff_right fun h => hshift h.1]
    have hle := longest_le_total t.buckets
    constructor
    · rintro ⟨hcpt, -⟩
      exact Int.natCast_eq_zero.mp hcpt.symm
    · intro hnone
      refine ⟨?_, ?_⟩
      · rw [hnone]
        rfl
      · rw [show longest t.buckets = 0 by omega]
        rfl

def twoBuckets : Table where
  dHashShift := 1
  shift_lt := by decide
  buckets := [[0x1000], [0x2000, 0x3000, 0x4000]]
  length_buckets := rfl

theorem exact_twoBuckets : Exact twoBuckets (helloInit twoBuckets 2) :=
  (exact_iff (by decide) 2).mpr (by decide)

/-- A start of 40 is reported as a chain of 41. -/
theorem not_exact_twoBuckets :
    total twoBuckets.buckets < 2 ^ 31 ∧ ¬ Exact twoBuckets (helloInit twoBuckets 40) := by
  refine ⟨by decide, fun hexact => ?_⟩
  exact absurd hexact.maximum (by decide)

end Pnl.DentryHash
