import Pnl.Proof.TaskMonitor2Balance

/-!
# The sampling thread

`sysfs_store` looks at `run` before it stops or starts the thread, but not at what `kthread_run`
returned, and `monitor_exit` does not look at `run` at all. So the thread is right as long as every
start succeeds, and the unloading is right if it comes while the thread runs.
-/

namespace Pnl.TaskMonitor2

open Bytes Kthreads Ledgers Runs

/-! ### Commands -/

theorem toNat_sub_ne_zero {x y : UInt8} (h : x ≠ y) : (x.toNat : Int) - y.toNat ≠ 0 := by
  have hne : x.toNat ≠ y.toNat := fun heq => h (UInt8.toNat_inj.mp heq)
  omega

theorem strncmp_cons (n : Nat) (x y : UInt8) (a b : List UInt8) :
    strncmp (n + 1) (x :: a) (y :: b)
      = if x ≠ y then (x.toNat : Int) - y.toNat else if x = 0 then 0 else strncmp n a b := rfl

theorem strncmp_nil (n : Nat) (a : List UInt8) : strncmp (n + 1) a [] = strncmp (n + 1) a [0] := rfl

/-- With no zero among the first `n` characters of `a`, these are what `b` has to start with. -/
theorem strncmp_eq_zero_iff {n : Nat} {a b : List UInt8} (hlength : n ≤ a.length)
    (hzero : 0 ∉ a.take n) : strncmp n a b = 0 ↔ a.take n <+: b := by
  induction n generalizing a b with
  | zero => simp [strncmp]
  | succ n ih =>
      cases a with
      | nil => simp at hlength
      | cons x a =>
          rw [List.take_succ_cons] at hzero ⊢
          obtain ⟨hx, hzero⟩ := not_or.mp (List.mem_cons.not.mp hzero)
          have hrest := ih (b := b.tail) (Nat.le_of_succ_le_succ hlength) hzero
          cases b with
          | nil =>
              rw [strncmp_nil, strncmp_cons, if_pos (Ne.symm hx)]
              exact iff_of_false (toNat_sub_ne_zero (Ne.symm hx)) (by simp)
          | cons y b =>
              rw [strncmp_cons, List.cons_prefix_cons]
              by_cases hxy : x = y
              · rw [if_neg (not_not.mpr hxy), if_neg (Ne.symm hx), and_iff_right hxy]
                exact hrest
              · rw [if_pos hxy]
                exact iff_of_false (toNat_sub_ne_zero hxy) fun h => hxy h.1

/-- A text of at most `n` characters is at the start of the copy when it is at the start of the
source. -/
theorem prefix_strncpy_iff {text dest src : List UInt8} {n : Nat} (hlength : text.length ≤ n)
    (hzero : 0 ∉ text) : text <+: strncpy dest src n ↔ text <+: src := by
  have hsource : text <+: src.takeWhile (· ≠ 0) ↔ text <+: src := by
    refine ⟨fun h => h.trans (List.takeWhile_prefix _), ?_⟩
    rintro ⟨rest, rfl⟩
    have hall : ∀ x ∈ text, decide (x ≠ 0) = true := fun x hx =>
      decide_eq_true fun hx0 => hzero (hx0 ▸ hx)
    rw [List.takeWhile_append_of_pos hall]
    exact List.prefix_append _ _
  rw [strncpy]
  set copied := (src.takeWhile (· ≠ 0)).take n with hcopied
  have htake : text <+: copied ↔ text <+: src.takeWhile (· ≠ 0) := by
    rw [hcopied, List.prefix_take_iff]
    exact and_iff_left hlength
  rw [← hsource, ← htake, List.append_assoc]
  constructor
  · intro h
    by_cases hfull : text.length ≤ copied.length
    · exact List.prefix_of_prefix_length_le h (List.prefix_append _ _) hfull
    · -- the text would go on into the padding
      have hpad : List.replicate (n - copied.length) (0 : UInt8)
          = 0 :: List.replicate (n - copied.length - 1) 0 := by
        rw [← List.replicate_succ]
        congr 1
        omega
      have hstop : copied ++ [0] <+: text := by
        refine List.prefix_of_prefix_length_le ?_ h ?_
        · rw [hpad, List.cons_append]
          exact ⟨_, (List.append_cons _ _ _).symm⟩
        · rw [List.length_append, List.length_singleton]
          omega
      exact absurd (hstop.subset (by simp)) hzero
  · exact fun h => h.trans (List.prefix_append _ _)

/-- A write to the sysfs file, and what `kthread_run` returns if the write calls it. -/
structure Write where
  buf : List UInt8
  thread : Addr

/-- The first four characters are those of the command, which is all `sysfs_store` compares. -/
def Write.Matches (w : Write) (command : List UInt8) : Prop := command.take 4 <+: w.buf

instance Write.decidableMatches (w : Write) (command : List UInt8) : Decidable (w.Matches command) :=
  inferInstanceAs (Decidable (_ <+: _))

theorem matches_iff (command : List UInt8) (hlength : 4 ≤ command.length)
    (hzero : 0 ∉ command.take 4) (w : Write) (dest : List UInt8) :
    strncmp 4 command (strncpy dest w.buf 255) = 0 ↔ w.Matches command := by
  have hshort : (command.take 4).length ≤ 255 := by
    rw [List.length_take]
    omega
  rw [strncmp_eq_zero_iff hlength hzero, prefix_strncpy_iff hshort hzero]
  rfl

theorem Write.Matches.not_start {w : Write} (h : w.Matches stopCommand) : ¬ w.Matches startCommand := by
  intro hstart
  have heq := List.prefix_of_prefix_length_le h hstart (by decide)
  exact absurd heq (by decide)

/-! ### One write -/

def store (md : Module) (w : Write) : Module := (sysfsStore md w.buf w.thread).1

inductive Stored (md : Module) (w : Write) : Module → Prop
  | stopped (myString : List UInt8) (hmatches : w.Matches stopCommand) (hrun : md.run = true) :
      Stored md w { md.kthreadStop with run := false, myString := myString }
  | started (myString : List UInt8) (hmatches : w.Matches startCommand) (hrun : md.run = false) :
      Stored md w { md.kthreadRun w.thread with run := true, myString := myString }
  | ignored (myString : List UInt8) (hstart : w.Matches startCommand → md.run = true) :
      Stored md w { md with myString := myString }

theorem stored_store (md : Module) (w : Write) : Stored md w (store md w) := by
  have hstop := matches_iff stopCommand (by decide) (by decide) w md.myString
  have hstart := matches_iff startCommand (by decide) (by decide) w md.myString
  rw [store, sysfsStore]
  dsimp only
  set myString := strncpy md.myString w.buf 255
  by_cases hmatchesStop : w.Matches stopCommand
  · have hnot := hstart.not.mpr hmatchesStop.not_start
    rw [if_pos (hstop.mpr hmatchesStop)]
    cases hrun : md.run with
    | true =>
        simp only [if_true, Module.kthreadStop]
        rw [if_neg hnot]
        exact .stopped myString hmatchesStop hrun
    | false =>
        simp only [Bool.false_eq_true, if_false]
        rw [if_neg hnot]
        exact hrun ▸ .ignored myString fun h => absurd h hmatchesStop.not_start
  · rw [if_neg (hstop.not.mpr hmatchesStop)]
    by_cases hmatches : w.Matches startCommand
    · rw [if_pos (hstart.mpr hmatches)]
      cases hrun : md.run with
      | true =>
          simp only [if_true]
          exact hrun ▸ .ignored myString fun _ => hrun
      | false =>
          simp only [Bool.false_eq_true, if_false, Module.kthreadRun]
          exact .started myString hmatches hrun
    · rw [if_neg (hstart.not.mpr hmatches)]
      exact .ignored myString fun h => absurd h hmatches

/-- If the write gets to `kthread_run`, that returns a thread. -/
def Write.Succeeds (md : Module) (w : Write) : Prop :=
  w.Matches startCommand → md.run = false → isErr w.thread = false

instance Write.decidableSucceeds (md : Module) (w : Write) : Decidable (w.Succeeds md) :=
  inferInstanceAs (Decidable (_ → _ → _))

/-- At most one thread is alive, `run` says whether `monitor_thread` is, and `kthread_stop` was
called on live threads only. -/
def Module.ThreadRight (md : Module) : Prop := md.threads.Right md.run md.monitorThread

/-- What keeps the thread right: no other thread is alive, and the pointer is not null. -/
structure Module.ThreadKept (md : Module) : Prop where
  tracked : md.threads.Tracked md.run md.monitorThread
  thread : md.monitorThread ≠ null

theorem Module.ThreadKept.store_iff {md : Module} (h : md.ThreadKept) {w : Write}
    (hthread : w.thread ≠ null) :
    ((store md w).ThreadRight ↔ w.Succeeds md) ∧ (w.Succeeds md → (store md w).ThreadKept) := by
  have hkept : (store md w).ThreadKept → w.Succeeds md →
      ((store md w).ThreadRight ↔ w.Succeeds md)
        ∧ (w.Succeeds md → (store md w).ThreadKept) := fun hnext hsucceeds =>
    ⟨iff_of_true hnext.tracked.right hsucceeds, fun _ => hnext⟩
  have hstored := stored_store md w
  generalize store md w = md' at hstored hkept ⊢
  cases hstored with
  | stopped myString hmatches hrun =>
      apply hkept
      · exact ⟨(hrun ▸ h.tracked).stop, h.thread⟩
      · exact fun hstart => absurd hstart hmatches.not_start
  | started myString hmatches hrun =>
      have htracked := hrun ▸ h.tracked
      cases herr : isErr w.thread with
      | false => exact hkept ⟨htracked.run herr, hthread⟩ fun _ _ => herr
      | true =>
          have hfails : ¬ w.Succeeds md := fun hsucceeds => by simp [hsucceeds hmatches hrun] at herr
          exact ⟨iff_of_false (htracked.not_right_run herr) hfails, fun h => absurd h hfails⟩
  | ignored myString hstart =>
      apply hkept
      · exact ⟨h.tracked, h.thread⟩
      · exact fun hmatches hrun => by simp [hstart hmatches] at hrun

/-! ### Unloading -/

theorem exitMonitors_threads (md : Module) (ms : List Addr) :
    (md.exitMonitors ms).threads = md.threads := by
  induction ms generalizing md with
  | nil => rfl
  | cons m ms ih =>
      rw [Module.exitMonitors, ih]
      rfl

theorem monitorExit_threads {md : Module} (hthread : md.monitorThread ≠ null) :
    md.monitorExit.threads = md.threads.stop md.monitorThread := by
  rw [Module.monitorExit]
  simp only [ne_eq, hthread, not_false_eq_true, if_true]
  dsimp only [Module.releaseAll]
  rw [exitMonitors_threads]
  rfl

/-- No thread is left, and the last `kthread_stop` was called on a live one too. -/
def Module.ThreadGone (md : Module) : Prop := md.threads.alive = ∅ ∧ md.threads.badStops = 0

theorem Module.ThreadKept.exit_iff {md : Module} (h : md.ThreadKept) :
    md.monitorExit.ThreadGone ↔ md.run = true := by
  rw [Module.ThreadGone, monitorExit_threads h.thread]
  cases hrun : md.run with
  | true =>
      have hstopped := (hrun ▸ h.tracked : md.threads.Tracked true md.monitorThread).stop
      exact iff_of_true ⟨hstopped.alive, hstopped.stops⟩ rfl
  | false =>
      have hbad := (hrun ▸ h.tracked : md.threads.Tracked false md.monitorThread).badStops_stop
      exact iff_of_false (fun hgone => hbad hgone.2) Bool.false_ne_true

/-! ### Runs -/

/-- The thread is right after loading and after every write, and gone after the unloading. -/
def ThreadsRight (md : Module) (writes : List Write) : Prop :=
  (∀ md' ∈ states store md writes, md'.ThreadRight)
    ∧ (final store md writes).monitorExit.ThreadGone

theorem threadKept_monitorInit {md md₀ : Module} (hrest : md.AtRest) {env : InitEnv}
    (hallowed : env.Allowed md.state) (hsucceeds : env.Succeeds)
    (hinit : monitorInit md env = (md₀, some 0)) : md₀.ThreadKept := by
  obtain ⟨hsome, hthread, hsysfs⟩ := hsucceeds
  obtain ⟨pid, hpid⟩ := Option.isSome_iff_exists.mp hsome
  obtain ⟨md₁, -, hthreads, -, hinit₁⟩ := monitorInit_some hrest hallowed hpid
  rw [hinit₁, hthread, if_neg Bool.false_ne_true, if_neg (not_not.mpr hsysfs)] at hinit
  obtain ⟨rfl, -⟩ := Prod.mk.inj hinit
  have hnone : md₁.threads.Tracked false env.thread := by
    rw [hthreads]
    exact ⟨rfl, rfl⟩
  exact ⟨hnone.run hthread, hallowed.2⟩

/-- **The thread is right over a run exactly when no start fails and the unloading comes while it
runs.** -/
theorem threadsRight_iff {md md₀ : Module} (hrest : md.AtRest) {env : InitEnv}
    (hallowed : env.Allowed md.state) (hsucceeds : env.Succeeds)
    (hinit : monitorInit md env = (md₀, some 0)) {writes : List Write}
    (hthreads : ∀ w ∈ writes, w.thread ≠ null) :
    ThreadsRight md₀ writes ↔
      StepsMeet store (fun md w => w.Succeeds md) md₀ writes
        ∧ (final store md₀ writes).run = true := by
  have hkept := threadKept_monitorInit hrest hallowed hsucceeds hinit
  have henv : StepsMeet store (fun _ w => w.thread ≠ null) md₀ writes :=
    stepsMeet_of_mem fun _ w hw => hthreads w hw
  have hexact : ∀ (md : Module) (w : Write), md.ThreadKept → w.thread ≠ null →
      ((store md w).ThreadRight ↔ w.Succeeds md) := fun _ _ h hw => (h.store_iff hw).1
  have hkeep : ∀ (md : Module) (w : Write), md.ThreadKept → w.thread ≠ null → w.Succeeds md →
      (store md w).ThreadKept := fun _ _ h hw => (h.store_iff hw).2
  rw [ThreadsRight, forall_states_iff_cond hexact hkeep (fun _ h => h.tracked.right) hkept henv]
  exact and_congr_right fun hwrites => (final_of_inv hkeep hkept henv hwrites).exit_iff

def loadedModule : Module := (monitorInit Module.atRest initEnv).1

theorem monitorInit_initEnv : monitorInit Module.atRest initEnv = (loadedModule, some 0) := rfl

def stopWrite : Write := { buf := ascii ['s', 't', 'o', 'p', '\n'], thread := 0x4000 }

def startWrite : Write := { buf := ascii ['s', 't', 'a', 'r', 't', '\n'], thread := 0x4000 }

theorem threadsRight_stop_start : ThreadsRight loadedModule [stopWrite, startWrite] :=
  (threadsRight_iff atRest_atRest (by decide) (by decide) monitorInit_initEnv
    (by decide)).mpr ⟨by decide, by decide⟩

/-- A stopped thread is stopped again when the module is unloaded. -/
theorem not_threadsRight_stop :
    Module.atRest.AtRest ∧ initEnv.Allowed Module.atRest.state ∧ initEnv.Succeeds
      ∧ monitorInit Module.atRest initEnv = (loadedModule, some 0) ∧ stopWrite.thread ≠ null
      ∧ ¬ ThreadsRight loadedModule [stopWrite] := by
  refine ⟨atRest_atRest, by decide, by decide, rfl, by decide, ?_⟩
  rintro ⟨-, -, hstops⟩
  exact absurd hstops (by decide)

end Pnl.TaskMonitor2
