import Mathlib.Algebra.Ring.Nat
import Mathlib.Data.List.GetD

/-!
# Sequences of checked writes

A program that fills a file front to back, tests what every `write` returns and gives up at the
first one that is not full does one of two things, and `writeAll_cases` says which: either the
device took everything, or the run stopped at the first call it did not take in full. Programs
differ only in what they return afterwards.
-/

namespace Pnl.Writes

/-- What a device answers to a `write` of `len` bytes: all of them, fewer with `errno` left alone,
or -1 with `errno` set. -/
inductive WriteOutcome (len : Nat) where
  | full
  | short (count : Fin len)
  | error (errno : { e : Int // e ≠ 0 })

abbrev Device := (call len : Nat) → WriteOutcome len

def fullDevice : Device := fun _ _ => .full

structure WriteCall where
  buf : List UInt8
  ret : Int
deriving DecidableEq

def WriteCall.Full (c : WriteCall) : Prop := c.ret = c.buf.length

instance (c : WriteCall) : Decidable c.Full := inferInstanceAs (Decidable (_ = _))

def WriteCall.transferred (c : WriteCall) : List UInt8 := c.buf.take c.ret.toNat

/-- An open file that is only written to: the calls made so far, and `errno`. -/
structure Fd where
  calls : List WriteCall := []
  errno : Int := 0

def Fd.bytes (fd : Fd) : List UInt8 := fd.calls.flatMap WriteCall.transferred

def Fd.offset (fd : Fd) : Nat := fd.bytes.length

/-- The bytes the calls asked for, taken or not. -/
def Fd.requested (fd : Fd) : Nat := (fd.calls.map fun c => c.buf.length).sum

def Fd.write (dev : Device) (fd : Fd) (buf : List UInt8) : Fd × Int :=
  match dev fd.calls.length buf.length with
  | .full => ({ fd with calls := fd.calls ++ [⟨buf, buf.length⟩] }, buf.length)
  | .short count => ({ fd with calls := fd.calls ++ [⟨buf, count.val⟩] }, count.val)
  | .error e => ({ calls := fd.calls ++ [⟨buf, -1⟩], errno := e.val }, -1)

/-- Writes the buffers in order, up to the first one that is not written in full. -/
def Fd.writeAll (dev : Device) (fd : Fd) : List (List UInt8) → Fd × Bool
  | [] => (fd, true)
  | buf :: bufs =>
      let (fd, ret) := fd.write dev buf
      if ret ≠ buf.length then (fd, false) else fd.writeAll dev bufs

/-- `for (...) { if (write(fd, buf, len) != len) stop; }`, `count` times. -/
def Fd.writeTimes (dev : Device) (fd : Fd) (buf : List UInt8) : Nat → Fd × Bool
  | 0 => (fd, true)
  | count + 1 =>
      let (fd, ret) := fd.write dev buf
      if ret ≠ buf.length then (fd, false) else fd.writeTimes dev buf count

def Fd.wrote (fd : Fd) (bufs : List (List UInt8)) : Fd :=
  { fd with calls := fd.calls ++ bufs.map fun buf => ⟨buf, buf.length⟩ }

/-- The file after the device took the first `k` of `bufs` and not all of the next one. -/
def Fd.stopped (dev : Device) (fd : Fd) (bufs : List (List UInt8)) (k : Nat) : Fd :=
  ((fd.wrote (bufs.take k)).write dev (bufs.getD k [])).1

def Device.Full (dev : Device) (n len : Nat) : Prop := dev n len = .full

/-- The device takes all of `bufs`, the first of them being its call number `n`. -/
def Device.Takes (dev : Device) (n : Nat) (bufs : List (List UInt8)) : Prop :=
  ∀ i (h : i < bufs.length), dev.Full (n + i) bufs[i].length

/-- The first of `bufs` that is not written in full is the `k`-th. -/
def Fd.StopsAt (dev : Device) (fd : Fd) (bufs : List (List UInt8)) (k : Nat) : Prop :=
  k < bufs.length ∧ dev.Takes fd.calls.length (bufs.take k)
    ∧ ¬ dev.Full (fd.calls.length + k) (bufs.getD k []).length

section Wrote

variable (fd : Fd) (bufs : List (List UInt8))

@[simp]
theorem errno_wrote : (fd.wrote bufs).errno = fd.errno := rfl

@[simp]
theorem wrote_nil : fd.wrote [] = fd := by simp [Fd.wrote]

@[simp]
theorem length_calls_wrote : (fd.wrote bufs).calls.length = fd.calls.length + bufs.length := by
  simp [Fd.wrote]

theorem wrote_append (bufs' : List (List UInt8)) :
    fd.wrote (bufs ++ bufs') = (fd.wrote bufs).wrote bufs' := by
  simp [Fd.wrote]

theorem bytes_wrote : (fd.wrote bufs).bytes = fd.bytes ++ bufs.flatten := by
  simp only [Fd.wrote, Fd.bytes, List.flatMap_append, List.flatMap_map]
  congr 1
  induction bufs with
  | nil => rfl
  | cons buf bufs _ => simp [WriteCall.transferred]

theorem offset_wrote : (fd.wrote bufs).offset = fd.offset + bufs.flatten.length := by
  simp [Fd.offset, bytes_wrote]

theorem full_of_mem_wrote {c : WriteCall} (hfd : ∀ c ∈ fd.calls, c.Full)
    (hc : c ∈ (fd.wrote bufs).calls) : c.Full := by
  simp only [Fd.wrote, List.mem_append, List.mem_map] at hc
  obtain hc | ⟨buf, _, rfl⟩ := hc
  · exact hfd c hc
  · rfl

end Wrote

section Write

variable {dev : Device} {fd : Fd} {buf : List UInt8}

theorem write_of_full (h : dev.Full fd.calls.length buf.length) :
    fd.write dev buf = (fd.wrote [buf], (buf.length : Int)) := by
  rw [Device.Full] at h
  simp [Fd.write, h, Fd.wrote]

/-- A call that is not full leaves a record saying so, and `errno` is set unless it was a short
write. -/
theorem write_of_ne_full (h : ¬ dev.Full fd.calls.length buf.length) :
    ∃ c : WriteCall, ¬ c.Full ∧ (fd.write dev buf).1.calls = fd.calls ++ [c]
      ∧ (fd.write dev buf).2 = c.ret ∧ c.buf = buf := by
  cases houtcome : dev fd.calls.length buf.length with
  | full => exact absurd houtcome h
  | short count =>
      refine ⟨⟨buf, count.val⟩, ?_, by simp [Fd.write, houtcome], by simp [Fd.write, houtcome], rfl⟩
      simp only [WriteCall.Full]
      omega
  | error e =>
      refine ⟨⟨buf, -1⟩, ?_, by simp [Fd.write, houtcome], by simp [Fd.write, houtcome], rfl⟩
      simp only [WriteCall.Full]
      omega

theorem write_ret_ne_of_ne_full (h : ¬ dev.Full fd.calls.length buf.length) :
    (fd.write dev buf).2 ≠ buf.length := by
  obtain ⟨c, hc, _, hret, hbuf⟩ := write_of_ne_full h
  rw [hret, ← hbuf]
  exact hc

theorem errno_write_of_short {count : Fin buf.length}
    (h : dev fd.calls.length buf.length = .short count) :
    (fd.write dev buf).1.errno = fd.errno := by
  simp [Fd.write, h]

theorem errno_write_of_error {e : { e : Int // e ≠ 0 }}
    (h : dev fd.calls.length buf.length = .error e) : (fd.write dev buf).1.errno ≠ 0 := by
  simpa [Fd.write, h] using e.property

end Write

section WriteAll

variable (dev : Device) (fd : Fd)

@[simp]
theorem writeAll_nil : fd.writeAll dev [] = (fd, true) := rfl

theorem writeAll_cons_of_full {buf : List UInt8} (bufs : List (List UInt8))
    (h : dev.Full fd.calls.length buf.length) :
    fd.writeAll dev (buf :: bufs) = (fd.wrote [buf]).writeAll dev bufs := by
  simp [Fd.writeAll, write_of_full h]

theorem writeAll_cons_of_ne_full {buf : List UInt8} (bufs : List (List UInt8))
    (h : ¬ dev.Full fd.calls.length buf.length) :
    fd.writeAll dev (buf :: bufs) = ((fd.write dev buf).1, false) := by
  simp [Fd.writeAll, write_ret_ne_of_ne_full h]

theorem takes_cons {n : Nat} {buf : List UInt8} {bufs : List (List UInt8)} :
    dev.Takes n (buf :: bufs) ↔ dev.Full n buf.length ∧ dev.Takes (n + 1) bufs := by
  constructor
  · intro h
    refine ⟨h 0 (by simp), fun i hi => ?_⟩
    have := h (i + 1) (by simpa using hi)
    rwa [List.getElem_cons_succ, show n + (i + 1) = n + 1 + i by omega] at this
  · rintro ⟨hhead, htail⟩ i hi
    cases i with
    | zero => simpa using hhead
    | succ i =>
        have := htail i (by simpa using hi)
        rwa [List.getElem_cons_succ, show n + (i + 1) = n + 1 + i by omega]

theorem takes_nil (n : Nat) : dev.Takes n [] := fun i hi => absurd hi (by simp)

theorem takes_append {n : Nat} {bufs bufs' : List (List UInt8)} :
    dev.Takes n (bufs ++ bufs') ↔ dev.Takes n bufs ∧ dev.Takes (n + bufs.length) bufs' := by
  induction bufs generalizing n with
  | nil => simp [takes_nil]
  | cons buf bufs ih =>
      rw [List.cons_append, takes_cons, ih, takes_cons, List.length_cons, and_assoc,
        show n + 1 + bufs.length = n + (bufs.length + 1) by omega]

theorem writeAll_of_takes {bufs : List (List UInt8)} (h : dev.Takes fd.calls.length bufs) :
    fd.writeAll dev bufs = (fd.wrote bufs, true) := by
  induction bufs generalizing fd with
  | nil => simp
  | cons buf bufs ih =>
      obtain ⟨hhead, htail⟩ := (takes_cons dev).mp h
      rw [writeAll_cons_of_full dev fd bufs hhead, ih (fd.wrote [buf]) (by simpa using htail),
        ← wrote_append, List.singleton_append]

theorem writeAll_of_stopsAt {bufs : List (List UInt8)} {k : Nat} (h : fd.StopsAt dev bufs k) :
    fd.writeAll dev bufs = (fd.stopped dev bufs k, false) := by
  induction bufs generalizing fd k with
  | nil => exact absurd h.1 (by simp)
  | cons buf bufs ih =>
      obtain ⟨hk, htakes, hne⟩ := h
      cases k with
      | zero =>
          rw [writeAll_cons_of_ne_full dev fd bufs (by simpa using hne)]
          simp [Fd.stopped]
      | succ k =>
          rw [List.take_succ_cons] at htakes
          obtain ⟨hhead, htail⟩ := (takes_cons dev).mp htakes
          have hstops : (fd.wrote [buf]).StopsAt dev bufs k := by
            refine ⟨by simpa using hk, by simpa using htail, ?_⟩
            rw [List.getD_cons_succ, show fd.calls.length + (k + 1) = fd.calls.length + 1 + k by omega]
              at hne
            simpa using hne
          rw [writeAll_cons_of_full dev fd bufs hhead, ih (fd.wrote [buf]) hstops, Fd.stopped,
            Fd.stopped, ← wrote_append, List.singleton_append, List.take_succ_cons,
            List.getD_cons_succ]

/-- **A sequence of checked writes stops at the first one that is not full.** -/
theorem writeAll_cases (bufs : List (List UInt8)) :
    dev.Takes fd.calls.length bufs ∨ ∃ k, fd.StopsAt dev bufs k := by
  induction bufs generalizing fd with
  | nil => exact Or.inl (takes_nil dev _)
  | cons buf bufs ih =>
      by_cases hhead : dev.Full fd.calls.length buf.length
      · rcases ih (fd.wrote [buf]) with htakes | ⟨k, hk, htakes, hne⟩
        · exact Or.inl ((takes_cons dev).mpr ⟨hhead, by simpa using htakes⟩)
        · right
          refine ⟨k + 1, by simpa using hk, ?_, ?_⟩
          · rw [List.take_succ_cons]
            exact (takes_cons dev).mpr ⟨hhead, by simpa using htakes⟩
          · rw [List.getD_cons_succ,
              show fd.calls.length + (k + 1) = fd.calls.length + 1 + k by omega]
            simpa using hne
      · exact Or.inr ⟨0, by simp, takes_nil dev _, by simpa using hhead⟩

theorem calls_stopped {bufs : List (List UInt8)} {k : Nat} (h : fd.StopsAt dev bufs k) :
    ∃ c : WriteCall, ¬ c.Full
      ∧ (fd.stopped dev bufs k).calls = (fd.wrote (bufs.take k)).calls ++ [c] := by
  obtain ⟨hk, -, hne⟩ := h
  have hlength : (fd.wrote (bufs.take k)).calls.length = fd.calls.length + k := by
    rw [length_calls_wrote, List.length_take, Nat.min_eq_left (Nat.le_of_lt hk)]
  rw [← hlength] at hne
  obtain ⟨c, hc, hcalls, -⟩ := write_of_ne_full hne
  exact ⟨c, hc, hcalls⟩

/-- A stopped sequence leaves `errno` alone when the last write was short, and sets it otherwise. -/
theorem errno_stopped {bufs : List (List UInt8)} {k : Nat} (h : fd.StopsAt dev bufs k) :
    ((∃ count, dev (fd.calls.length + k) (bufs.getD k []).length = .short count)
        ∧ (fd.stopped dev bufs k).errno = fd.errno)
      ∨ ((∃ e, dev (fd.calls.length + k) (bufs.getD k []).length = .error e)
        ∧ (fd.stopped dev bufs k).errno ≠ 0) := by
  obtain ⟨hk, -, hne⟩ := h
  have hlength : (fd.wrote (bufs.take k)).calls.length = fd.calls.length + k := by
    rw [length_calls_wrote, List.length_take, Nat.min_eq_left (Nat.le_of_lt hk)]
  rw [← hlength] at hne ⊢
  cases houtcome : dev (fd.wrote (bufs.take k)).calls.length (bufs.getD k []).length with
  | full => exact absurd houtcome hne
  | short count =>
      exact Or.inl ⟨⟨count, rfl⟩, by rw [Fd.stopped, errno_write_of_short houtcome, errno_wrote]⟩
  | error e => exact Or.inr ⟨⟨e, rfl⟩, errno_write_of_error houtcome⟩

theorem calls_writeAll {bufs : List (List UInt8)} (hne : bufs ≠ []) :
    ∃ c more, (fd.writeAll dev bufs).1.calls = fd.calls ++ c :: more := by
  rcases writeAll_cases dev fd bufs with htakes | ⟨k, hstops⟩
  · rw [writeAll_of_takes dev fd htakes, Fd.wrote]
    cases bufs with
    | nil => exact absurd rfl hne
    | cons buf bufs => exact ⟨_, _, rfl⟩
  · obtain ⟨c, -, hcalls⟩ := calls_stopped dev fd hstops
    rw [writeAll_of_stopsAt dev fd hstops, hcalls, Fd.wrote, List.append_assoc]
    cases bufs.take k with
    | nil => exact ⟨_, _, rfl⟩
    | cons buf bufs => exact ⟨_, _, rfl⟩

section Append

variable {fd} {bufs bufs' : List (List UInt8)} {k : Nat} (h : fd.StopsAt dev (bufs ++ bufs') k)

include h

theorem stopsAt_append_left (hk : k < bufs.length) :
    fd.StopsAt dev bufs k ∧ fd.stopped dev (bufs ++ bufs') k = fd.stopped dev bufs k := by
  obtain ⟨-, htakes, hne⟩ := h
  rw [List.take_append_of_le_length (Nat.le_of_lt hk)] at htakes
  rw [List.getD_append _ _ _ _ hk] at hne
  refine ⟨⟨hk, htakes, hne⟩, ?_⟩
  rw [Fd.stopped, Fd.stopped, List.take_append_of_le_length (Nat.le_of_lt hk), List.getD_append _ _ _ _ hk]

theorem stopsAt_append_right (hk : bufs.length ≤ k) :
    dev.Takes fd.calls.length bufs ∧ (fd.wrote bufs).StopsAt dev bufs' (k - bufs.length)
      ∧ fd.stopped dev (bufs ++ bufs') k
        = (fd.wrote bufs).stopped dev bufs' (k - bufs.length) := by
  obtain ⟨hlt, htakes, hne⟩ := h
  have htake : (bufs ++ bufs').take k = bufs ++ bufs'.take (k - bufs.length) := by
    rw [List.take_append, List.take_of_length_le hk]
  rw [htake, takes_append] at htakes
  rw [List.getD_append_right _ _ _ _ hk] at hne
  refine ⟨htakes.1, ⟨?_, by simpa using htakes.2, ?_⟩, ?_⟩
  · rw [List.length_append] at hlt
    omega
  · rw [length_calls_wrote, show fd.calls.length + bufs.length + (k - bufs.length)
      = fd.calls.length + k by omega]
    exact hne
  · rw [Fd.stopped, Fd.stopped, htake, wrote_append, List.getD_append_right _ _ _ _ hk]

end Append

theorem writeTimes_eq_writeAll (buf : List UInt8) (count : Nat) :
    fd.writeTimes dev buf count = fd.writeAll dev (List.replicate count buf) := by
  induction count generalizing fd with
  | zero => rfl
  | succ count ih => simp only [List.replicate_succ, Fd.writeTimes, Fd.writeAll, ih]

theorem writeAll_append (bufs bufs' : List (List UInt8)) :
    fd.writeAll dev (bufs ++ bufs') =
      if (fd.writeAll dev bufs).2 then (fd.writeAll dev bufs).1.writeAll dev bufs'
      else fd.writeAll dev bufs := by
  induction bufs generalizing fd with
  | nil => simp
  | cons buf bufs ih =>
      by_cases hhead : dev.Full fd.calls.length buf.length
      · rw [List.cons_append, writeAll_cons_of_full dev fd _ hhead,
          writeAll_cons_of_full dev fd _ hhead, ih]
      · rw [List.cons_append, writeAll_cons_of_ne_full dev fd _ hhead,
          writeAll_cons_of_ne_full dev fd _ hhead]
        simp

end WriteAll

section Requested

variable (dev : Device) (fd : Fd)

/-- No call moves the file offset further than it asked for. -/
theorem offset_le_requested : fd.offset ≤ fd.requested := by
  rw [Fd.offset, Fd.bytes, Fd.requested]
  induction fd.calls with
  | nil => simp
  | cons c calls ih =>
      have htake : c.transferred.length ≤ c.buf.length := by
        rw [WriteCall.transferred, List.length_take]
        exact Nat.min_le_right _ _
      rw [List.flatMap_cons, List.length_append, List.map_cons, List.sum_cons]
      omega

theorem requested_write (buf : List UInt8) :
    (fd.write dev buf).1.requested = fd.requested + buf.length := by
  rw [Fd.write]
  split <;> simp [Fd.requested]

theorem requested_writeAll_le (bufs : List (List UInt8)) :
    (fd.writeAll dev bufs).1.requested ≤ fd.requested + bufs.flatten.length := by
  induction bufs generalizing fd with
  | nil => simp
  | cons buf bufs ih =>
      have hwrite := requested_write dev fd buf
      rw [List.flatten_cons, List.length_append]
      simp only [Fd.writeAll]
      split
      · dsimp only
        omega
      · have hrest := ih (fd.write dev buf).1
        omega

end Requested

end Pnl.Writes
