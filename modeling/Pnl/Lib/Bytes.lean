import Mathlib.Data.Nat.Digits.Defs
import Mathlib.Tactic.Ring

/-!
# Numbers as bytes

What a format says about a number is its bytes, least significant first; what a host keeps in
memory is its own business. A program that stores `htole32 x` is right on every host exactly because
the two reversals of a big-endian host cancel, and that is what `store_htole32` says. The rest of
the module cuts a byte stream into fields and records.
-/

namespace Pnl.Bytes

/-- The characters of a C literal, without the terminating zero. -/
def ascii (chars : List Char) : List UInt8 := chars.map fun c => UInt8.ofNat c.toNat

/-- What `%u` prints. -/
def decimal (n : Nat) : List UInt8 := ascii (Nat.toDigits 10 n)

/-- What `%d` prints. -/
def signedDecimal (n : Int) : List UInt8 :=
  if n < 0 then ascii ['-'] ++ decimal n.natAbs else decimal n.natAbs

/-- Numbers are printed without a terminating zero. -/
theorem zero_notMem_decimal (n : Nat) : 0 ∉ decimal n := by
  intro hmem
  obtain ⟨c, hc, hzero⟩ := List.mem_map.mp hmem
  have hdigit := Nat.isDigit_of_mem_toDigits (by decide) (by decide) hc
  rw [Char.isDigit, Bool.and_eq_true, decide_eq_true_eq, decide_eq_true_eq] at hdigit
  have hlow : 48 ≤ c.toNat := hdigit.1
  have hhigh : c.toNat ≤ 57 := hdigit.2
  have hval := congrArg UInt8.toNat hzero
  rw [UInt8.toNat_ofNat', show (0 : UInt8).toNat = 0 from rfl] at hval
  omega

/-- The `n` low bytes of a number, least significant first. -/
def leBytes : Nat → Nat → List UInt8
  | 0, _ => []
  | n + 1, x => UInt8.ofNat x :: leBytes n (x / 256)

/-- The number a little-endian byte string spells. -/
def leNat (bytes : List UInt8) : Nat := Nat.ofDigits 256 (bytes.map UInt8.toNat)

@[simp]
theorem leNat_nil : leNat [] = 0 := rfl

@[simp]
theorem leNat_cons (b : UInt8) (bytes : List UInt8) :
    leNat (b :: bytes) = b.toNat + 256 * leNat bytes := by
  simp [leNat, Nat.ofDigits_cons]

@[simp]
theorem length_leBytes (n x : Nat) : (leBytes n x).length = n := by
  induction n generalizing x with
  | zero => rfl
  | succ n ih => simp [leBytes, ih]

theorem leNat_leBytes (n x : Nat) : leNat (leBytes n x) = x % 256 ^ n := by
  induction n generalizing x with
  | zero => simp [leBytes, Nat.mod_one]
  | succ n ih =>
      rw [leBytes, leNat_cons, ih, pow_succ', Nat.mod_mul, UInt8.toNat_ofNat']

theorem leNat_lt (bytes : List UInt8) : leNat bytes < 256 ^ bytes.length := by
  induction bytes with
  | nil => simp
  | cons b bytes ih =>
      have hb : b.toNat < 256 := b.toNat_lt
      rw [leNat_cons, List.length_cons, pow_succ]
      omega

theorem leBytes_leNat (bytes : List UInt8) : leBytes bytes.length (leNat bytes) = bytes := by
  induction bytes with
  | nil => rfl
  | cons b bytes ih =>
      have hb : b.toNat < 256 := b.toNat_lt
      have hhead : UInt8.ofNat (b.toNat + 256 * leNat bytes) = b := by
        apply UInt8.toNat_inj.mp
        rw [UInt8.toNat_ofNat']
        omega
      have htail : (b.toNat + 256 * leNat bytes) / 256 = leNat bytes := by omega
      rw [List.length_cons, leNat_cons, leBytes, hhead, htail, ih]

/-! ### Hosts -/

inductive ByteOrder where
  | little
  | big
deriving DecidableEq, Repr

def ByteOrder.store (host : ByteOrder) (n x : Nat) : List UInt8 :=
  match host with
  | .little => leBytes n x
  | .big => (leBytes n x).reverse

/-- `htole32`: nothing on a little-endian host, a byte swap on a big-endian one. -/
def htole32 (host : ByteOrder) (x : UInt32) : UInt32 :=
  match host with
  | .little => x
  | .big => UInt32.ofNat (leNat (leBytes 4 x.toNat).reverse)

def le32toh (host : ByteOrder) (x : UInt32) : UInt32 := htole32 host x

def htole64 (host : ByteOrder) (x : UInt64) : UInt64 :=
  match host with
  | .little => x
  | .big => UInt64.ofNat (leNat (leBytes 8 x.toNat).reverse)

@[simp]
theorem length_store (host : ByteOrder) (n x : Nat) : (host.store n x).length = n := by
  cases host <;> simp [ByteOrder.store]

/-- Swapping the bytes of a number reverses the bytes a little-endian reader sees. -/
theorem leBytes_swap (n x : Nat) :
    leBytes n (leNat (leBytes n x).reverse % 256 ^ n) = (leBytes n x).reverse := by
  have hlength : (leBytes n x).reverse.length = n := by simp
  have hlt : leNat (leBytes n x).reverse < 256 ^ n := by
    simpa [hlength] using leNat_lt (leBytes n x).reverse
  rw [Nat.mod_eq_of_lt hlt]
  simpa [hlength] using leBytes_leNat (leBytes n x).reverse

theorem leBytes_htole32_big (x : UInt32) :
    leBytes 4 (htole32 .big x).toNat = (leBytes 4 x.toNat).reverse := by
  rw [htole32, UInt32.toNat_ofNat', show (2 : Nat) ^ 32 = 256 ^ 4 by norm_num, leBytes_swap]

/-- **A converted field is little-endian on disk**, whatever the host. -/
theorem store_htole32 (host : ByteOrder) (x : UInt32) :
    host.store 4 (htole32 host x).toNat = leBytes 4 x.toNat := by
  cases host with
  | little => rfl
  | big => rw [ByteOrder.store, leBytes_htole32_big, List.reverse_reverse]

theorem store_htole64 (host : ByteOrder) (x : UInt64) :
    host.store 8 (htole64 host x).toNat = leBytes 8 x.toNat := by
  cases host with
  | little => rfl
  | big =>
      rw [ByteOrder.store, htole64, UInt64.toNat_ofNat', show (2 : Nat) ^ 64 = 256 ^ 8 by norm_num,
        leBytes_swap, List.reverse_reverse]

@[simp]
theorem le32toh_htole32 (host : ByteOrder) (x : UInt32) : le32toh host (htole32 host x) = x := by
  cases host with
  | little => rfl
  | big =>
      apply UInt32.toNat_inj.mp
      have hx : x.toNat < 256 ^ 4 := x.toNat_lt
      rw [le32toh, htole32, leBytes_htole32_big, List.reverse_reverse, leNat_leBytes,
        Nat.mod_eq_of_lt hx, UInt32.ofNat_toNat]

/-! ### Fields and records -/

def slice (bytes : List UInt8) (off len : Nat) : List UInt8 := (bytes.drop off).take len

/-- The little-endian number held in the `len` bytes from offset `off`. -/
def leAt (bytes : List UInt8) (off len : Nat) : Nat := leNat (slice bytes off len)

theorem slice_append_left {a : List UInt8} {off len : Nat} (b : List UInt8)
    (h : off + len ≤ a.length) : slice (a ++ b) off len = slice a off len := by
  rw [slice, slice, List.drop_append_of_le_length (by omega),
    List.take_append_of_le_length (by rw [List.length_drop]; omega)]

theorem slice_append_right {a : List UInt8} {n : Nat} (ha : a.length = n) (b : List UInt8)
    (off len : Nat) : slice (a ++ b) (n + off) len = slice b off len := by
  subst ha
  rw [slice, slice, List.drop_append, Nat.add_sub_cancel_left,
    List.drop_eq_nil_of_le (by omega), List.nil_append]

theorem slice_slice (bytes : List UInt8) {off len off' len' : Nat} (h : off' + len' ≤ len) :
    slice (slice bytes off len) off' len' = slice bytes (off + off') len' := by
  rw [slice, slice, slice, List.drop_take, List.drop_drop, List.take_take,
    Nat.min_eq_left (by omega)]

theorem slice_zero_append {a : List UInt8} {n : Nat} (ha : a.length = n) (b : List UInt8) :
    slice (a ++ b) 0 n = a := by
  subst ha
  rw [slice, List.drop_zero, List.take_left]

/-- A stream made of records of one size holds the `k`-th one at `k` times that size. -/
theorem slice_flatten {records : List (List UInt8)} {size k : Nat}
    (hsize : ∀ r ∈ records, r.length = size) (hk : k < records.length) :
    slice records.flatten (size * k) size = records[k] := by
  induction records generalizing k with
  | nil => simp at hk
  | cons r records ih =>
      have hr : r.length = size := hsize r (by simp)
      cases k with
      | zero => simpa using slice_zero_append hr records.flatten
      | succ k =>
          have htail := ih (fun s hs => hsize s (by simp [hs])) (by simpa using hk)
          rw [List.flatten_cons, show size * (k + 1) = size + size * k by ring,
            slice_append_right hr, List.getElem_cons_succ]
          exact htail

theorem length_flatten_of_size {records : List (List UInt8)} {size : Nat}
    (hsize : ∀ r ∈ records, r.length = size) : records.flatten.length = size * records.length := by
  induction records with
  | nil => simp
  | cons r records ih =>
      rw [List.flatten_cons, List.length_append, List.length_cons, hsize r (by simp),
        ih fun s hs => hsize s (by simp [hs])]
      ring

section Arrays

variable {α : Type*} {layout : α → List UInt8} {size : Nat}

theorem length_flatMap_of_size {xs : List α} (hsize : ∀ x ∈ xs, (layout x).length = size) :
    (xs.flatMap layout).length = size * xs.length := by
  rw [List.flatMap_def, length_flatten_of_size (List.forall_mem_map.mpr hsize), List.length_map]

theorem slice_flatMap_of_size {xs : List α} (hsize : ∀ x ∈ xs, (layout x).length = size) {k : Nat}
    (hk : k < xs.length) : slice (xs.flatMap layout) (size * k) size = layout xs[k] := by
  have hk' : k < (xs.map layout).length := by rwa [List.length_map]
  rw [List.flatMap_def, slice_flatten (List.forall_mem_map.mpr hsize) hk', List.getElem_map]

variable (hsize : ∀ x, (layout x).length = size)

include hsize

theorem length_array (xs : List α) : (xs.flatMap layout).length = size * xs.length :=
  length_flatMap_of_size fun x _ => hsize x

theorem slice_array {xs : List α} {k : Nat} (hk : k < xs.length) :
    slice (xs.flatMap layout) (size * k) size = layout xs[k] :=
  slice_flatMap_of_size (fun x _ => hsize x) hk

end Arrays

end Pnl.Bytes
