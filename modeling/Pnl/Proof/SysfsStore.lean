import Pnl.Lib.UserWrites
import Pnl.Proof.TaskMonitor2Thread
import Pnl.TaskMonitorSysfs

/-!
# What sysfs_store understands

Two modules have the same `sysfs_store`. It compares four characters of a copy of the buffer with
either command, where one of the commands has five, and it returns the length of the copy, which ends
at a zero byte and after 255 bytes. So the commands are told apart on short texts without zero bytes
only, and on these a word that begins as `start` does starts a stopped thread.
-/

namespace Pnl.SysfsStore

open Bytes Kthreads Runs TaskMonitor2 UserWrites

/-! ### A thread that is switched through a file -/

/-- A module with a thread to stop and start, the flag that says whether it runs, and `my_string`. -/
structure Switch (σ : Type*) where
  run : σ → Bool
  string : σ → List UInt8
  stop : σ → σ
  start : σ → Addr → σ
  withString : σ → List UInt8 → σ
  run_withString : ∀ s text, run (withString s text) = run s
  string_withString : ∀ s text, string (withString s text) = text
  run_start : ∀ s thread, run (start s thread) = true
  string_stop : ∀ s, string (stop s) = string s
  string_start : ∀ s thread, string (start s thread) = string s
  stop_withString : ∀ s text, stop (withString s text) = withString (stop s) text
  start_withString : ∀ s text thread,
    start (withString s text) thread = withString (start s thread) text

variable {σ : Type*} (sw : Switch σ)

/-- What the text at the start of a buffer asks for. -/
def Switch.obey (s : σ) (buf : List UInt8) (thread : Addr) : σ :=
  if stopCommand <+: buf ∧ sw.run s = true then sw.stop s
  else if startCommand <+: buf ∧ sw.run s = false then sw.start s thread
  else s

/-- `sysfs_store` of any such module. -/
def Switch.store (s : σ) (buf : List UInt8) (thread : Addr) : σ × Nat :=
  let s := sw.withString s (strncpy (sw.string s) buf 255)
  let res := strlen (sw.string s)
  let s :=
    if strncmp 4 stopCommand (sw.string s) = 0 then if sw.run s then sw.stop s else s else s
  let s :=
    if strncmp 4 startCommand (sw.string s) = 0 then if sw.run s then s else sw.start s thread
    else s
  (s, res)

/-- A write of `buf`, which the kernel ends with a zero: the thread is switched as the text asks and
nothing else is done, all of the buffer is taken, and so a program that writes it calls `write` once.
`threads` is what `kthread_run` returns in each of its calls. -/
structure Switch.Understands (store : σ → List UInt8 → Addr → σ × Nat) (threads : Nat → Addr)
    (s : σ) (buf : List UInt8) : Prop where
  effect : ∃ text,
    (store s (buf ++ [0]) (threads 0)).1 = sw.withString (sw.obey s buf (threads 0)) text
  returned : (store s (buf ++ [0]) (threads 0)).2 = buf.length
  once : SubmittedOnce (fun call s rest => store s (rest ++ [0]) (threads call)) s buf

/-- A stopped thread and a text that is not the command but agrees with it in four characters. -/
def Misread (run : Bool) (buf : List UInt8) : Prop :=
  run = false ∧ startCommand.take 4 <+: buf ∧ ¬ startCommand <+: buf

instance Misread.decidable (run : Bool) (buf : List UInt8) : Decidable (Misread run buf) :=
  inferInstanceAs (Decidable (_ ∧ _ ∧ _))

/-! ### The copy -/

theorem prefix_concat_zero_iff {text buf : List UInt8} (hzero : 0 ∉ text) :
    text <+: buf ++ [0] ↔ text <+: buf := by
  rw [List.prefix_concat_iff]
  refine or_iff_right ?_
  rintro rfl
  exact hzero (by simp)

/-- The last byte of `my_string` is never written, so it ends every copy. -/
theorem strlen_strncpy {dest : List UInt8} (hdest : dest.drop 255 = [0]) (src : List UInt8) :
    strlen (strncpy dest src 255) = min 255 (strlen src) := by
  set text := (src.takeWhile (· ≠ 0)).take 255 with htext
  have hlength : text.length = min 255 (strlen src) := by
    rw [htext, List.length_take, strlen]
  have hall : ∀ b ∈ text, decide (b ≠ 0) = true := by
    intro b hb
    exact List.mem_takeWhile_imp (p := fun b => decide (b ≠ 0)) (List.mem_of_mem_take hb)
  have hzeros : (List.replicate (255 - text.length) (0 : UInt8) ++ [0]).takeWhile
      (fun b => decide (b ≠ 0)) = [] := by
    rw [← List.replicate_succ', List.replicate_succ, List.takeWhile_cons_of_neg (by simp)]
  rw [strlen, strncpy, ← htext, hdest, List.append_assoc, List.takeWhile_append_of_pos hall, hzeros,
    List.append_nil, hlength]

theorem strlen_concat_zero (buf : List UInt8) : strlen (buf ++ [0]) = strlen buf := by
  rw [strlen, strlen]
  induction buf with
  | nil => rfl
  | cons b buf ih =>
      rw [List.cons_append, List.takeWhile_cons, List.takeWhile_cons]
      split_ifs
      · rw [List.length_cons, List.length_cons, ih]
      · rfl

theorem strlen_eq_length_iff (buf : List UInt8) : strlen buf = buf.length ↔ 0 ∉ buf := by
  constructor
  · intro hlength hzero
    exact (strlen_lt_of_mem hzero).ne hlength
  · intro hzero
    rw [strlen, List.takeWhile_eq_self_iff.mpr]
    intro b hb
    exact decide_eq_true fun hb0 => hzero (hb0 ▸ hb)

/-! ### One write -/

/-- What the first four characters ask for. -/
def Switch.perform (s : σ) (buf : List UInt8) (thread : Addr) : σ :=
  if stopCommand <+: buf ∧ sw.run s = true then sw.stop s
  else if startCommand.take 4 <+: buf ∧ sw.run s = false then sw.start s thread
  else s

theorem not_stop_of_start {buf : List UInt8} (h : startCommand.take 4 <+: buf) :
    ¬ stopCommand <+: buf := by
  intro hstop
  have heq := List.prefix_of_prefix_length_le h hstop (by decide)
  exact absurd heq (by decide)

section Store

variable {sw} {s : σ}

theorem Switch.store_fst (buf : List UInt8) (thread : Addr) :
    (sw.store s buf thread).1
      = sw.withString (sw.perform s buf thread) (strncpy (sw.string s) buf 255) := by
  have hstop : strncmp 4 stopCommand (strncpy (sw.string s) buf 255) = 0 ↔ stopCommand <+: buf :=
    matches_iff stopCommand (by decide) (by decide) ⟨buf, thread⟩ (sw.string s)
  have hstart : strncmp 4 startCommand (strncpy (sw.string s) buf 255) = 0
      ↔ startCommand.take 4 <+: buf :=
    matches_iff startCommand (by decide) (by decide) ⟨buf, thread⟩ (sw.string s)
  rw [Switch.store, Switch.perform]
  simp only [sw.string_withString, sw.run_withString]
  by_cases hmatches : stopCommand <+: buf
  · have hnot : ¬ startCommand.take 4 <+: buf := fun h => not_stop_of_start h hmatches
    rw [if_pos (hstop.mpr hmatches)]
    cases hrun : sw.run s with
    | true =>
        simp only [if_true, sw.string_stop, sw.string_withString, and_self, hmatches]
        rw [if_neg (hstart.not.mpr hnot), sw.stop_withString]
    | false => simp [sw.string_withString, hstart, hnot]
  · rw [if_neg (hstop.not.mpr hmatches), sw.string_withString]
    by_cases hfour : startCommand.take 4 <+: buf
    · rw [if_pos (hstart.mpr hfour), sw.run_withString]
      cases hrun : sw.run s with
      | true => simp [hmatches]
      | false => simp [hmatches, hfour, sw.start_withString]
    · rw [if_neg (hstart.not.mpr hfour), if_neg fun h => hmatches h.1, if_neg fun h => hfour h.1]

theorem Switch.store_snd (hstring : (sw.string s).drop 255 = [0]) (buf : List UInt8)
    (thread : Addr) : (sw.store s (buf ++ [0]) thread).2 = min 255 (strlen buf) := by
  rw [Switch.store]
  dsimp only
  rw [sw.string_withString, strlen_strncpy hstring, strlen_concat_zero]

theorem Switch.perform_eq_obey {buf : List UInt8} (h : ¬ Misread (sw.run s) buf) (thread : Addr) :
    sw.perform s buf thread = sw.obey s buf thread := by
  have hstart : startCommand.take 4 <+: buf ∧ sw.run s = false
      ↔ startCommand <+: buf ∧ sw.run s = false := by
    refine and_congr_left fun hrun => ⟨fun hfour => ?_, (List.take_prefix 4 _).trans⟩
    by_contra hnot
    exact h ⟨hrun, hfour, hnot⟩
  simp only [Switch.perform, Switch.obey, hstart]

/-- A misread text starts the thread, and nothing that leaves `run` alone is the same. -/
theorem Switch.perform_ne_obey {buf : List UInt8} (h : Misread (sw.run s) buf) (thread : Addr) :
    sw.run (sw.perform s buf thread) = true ∧ sw.run (sw.obey s buf thread) = false := by
  obtain ⟨hrun, hfour, hnot⟩ := h
  have hstop : ¬ (stopCommand <+: buf ∧ sw.run s = true) := fun h => not_stop_of_start hfour h.1
  constructor
  · rw [Switch.perform, if_neg hstop, if_pos ⟨hfour, hrun⟩, sw.run_start]
  · rw [Switch.obey, if_neg hstop, if_neg fun h => hnot h.1, hrun]

theorem Switch.perform_concat_zero (buf : List UInt8) (thread : Addr) :
    sw.perform s (buf ++ [0]) thread = sw.perform s buf thread := by
  have hstop : stopCommand <+: buf ++ [0] ↔ stopCommand <+: buf :=
    prefix_concat_zero_iff (by decide)
  have hstart : startCommand.take 4 <+: buf ++ [0] ↔ startCommand.take 4 <+: buf :=
    prefix_concat_zero_iff (by decide)
  simp only [Switch.perform, hstop, hstart]

/-- What `my_string` ends with stays, whatever is written. -/
theorem Switch.drop_string_store (buf : List UInt8) (thread : Addr) :
    (sw.string (sw.store s buf thread).1).drop 255 = (sw.string s).drop 255 := by
  have hlength : ((buf.takeWhile (· ≠ 0)).take 255
      ++ List.replicate (255 - ((buf.takeWhile (· ≠ 0)).take 255).length) 0).length = 255 := by
    simp only [List.length_append, List.length_replicate, List.length_take]
    omega
  rw [Switch.store_fst, sw.string_withString, strncpy, List.drop_left' hlength]

/-- The array starts as zeros, so it ends in a zero in every state that writes lead to. -/
theorem Switch.drop_string_states (hstring : (sw.string s).drop 255 = [0])
    (writes : List (List UInt8 × Addr)) :
    ∀ s' ∈ states (fun s write => (sw.store s write.1 write.2).1) s writes,
      (sw.string s').drop 255 = [0] := by
  have hfree : StepsMeet (fun s (write : List UInt8 × Addr) => (sw.store s write.1 write.2).1)
      (fun _ _ => True) s writes := stepsMeet_of_forall fun _ _ => trivial
  refine invariant (fun s write hs _ => ?_) hstring hfree
  rw [Switch.drop_string_store]
  exact hs

/-- **A write is understood exactly when it is short, has no zero byte and is not misread.** -/
theorem Switch.understands_iff (hstring : (sw.string s).drop 255 = [0]) {buf : List UInt8}
    (hbuf : buf ≠ []) (threads : Nat → Addr) :
    sw.Understands sw.store threads s buf
      ↔ buf.length ≤ 255 ∧ 0 ∉ buf ∧ ¬ Misread (sw.run s) buf := by
  have hreturned := Switch.store_snd hstring buf (threads 0)
  have hle : strlen buf ≤ buf.length := (List.takeWhile_prefix _).length_le
  constructor
  · rintro ⟨⟨text, heffect⟩, hcount, -⟩
    rw [hreturned] at hcount
    refine ⟨by omega, (strlen_eq_length_iff buf).mp (by omega), fun hmisread => ?_⟩
    obtain ⟨hperformed, hobeyed⟩ := Switch.perform_ne_obey hmisread (threads 0)
    have hrun := congrArg sw.run heffect
    rw [Switch.store_fst, sw.run_withString, sw.run_withString, Switch.perform_concat_zero, hperformed,
      hobeyed] at hrun
    exact Bool.noConfusion hrun
  · rintro ⟨hshort, hzero, hread⟩
    have hlength := (strlen_eq_length_iff buf).mpr hzero
    refine ⟨⟨strncpy (sw.string s) (buf ++ [0]) 255, ?_⟩, by omega, (submittedOnce_iff hbuf).mpr ?_⟩
    · rw [Switch.store_fst, Switch.perform_concat_zero, Switch.perform_eq_obey hread]
    · omega

end Store

/-! ### The two modules -/

def taskMonitor2 : Switch TaskMonitor2.Module where
  run := TaskMonitor2.Module.run
  string := TaskMonitor2.Module.myString
  stop md := { md.kthreadStop with run := false }
  start md thread := { md.kthreadRun thread with run := true }
  withString md text := { md with myString := text }
  run_withString _ _ := rfl
  string_withString _ _ := rfl
  run_start _ _ := rfl
  string_stop _ := rfl
  string_start _ _ := rfl
  stop_withString _ _ := rfl
  start_withString _ _ _ := rfl

def taskMonitor : Switch TaskMonitorSysfs.Module where
  run := TaskMonitorSysfs.Module.run
  string := TaskMonitorSysfs.Module.myString
  stop md := { md.kthreadStop with run := false }
  start md thread := { md.kthreadRun thread with run := true }
  withString md text := { md with myString := text }
  run_withString _ _ := rfl
  string_withString _ _ := rfl
  run_start _ _ := rfl
  string_stop _ := rfl
  string_start _ _ := rfl
  stop_withString _ _ := rfl
  start_withString _ _ _ := rfl

theorem taskMonitor2_store : taskMonitor2.store = TaskMonitor2.sysfsStore := rfl

theorem taskMonitor_store : taskMonitor.store = TaskMonitorSysfs.sysfsStore := rfl

/-- **Both modules understand the same writes.** -/
theorem sysfsStore_understands_iff {buf : List UInt8} (hbuf : buf ≠ []) (threads : Nat → Addr)
    {md : TaskMonitorSysfs.Module} (hmd : md.myString.drop 255 = [0])
    {md₂ : TaskMonitor2.Module} (hmd₂ : md₂.myString.drop 255 = [0]) :
    (taskMonitor.Understands TaskMonitorSysfs.sysfsStore threads md buf
        ↔ buf.length ≤ 255 ∧ 0 ∉ buf ∧ ¬ Misread md.run buf)
      ∧ (taskMonitor2.Understands TaskMonitor2.sysfsStore threads md₂ buf
        ↔ buf.length ≤ 255 ∧ 0 ∉ buf ∧ ¬ Misread md₂.run buf) := by
  rw [← taskMonitor_store, ← taskMonitor2_store]
  exact ⟨taskMonitor.understands_iff hmd hbuf threads, taskMonitor2.understands_iff hmd₂ hbuf threads⟩

def stopText : List UInt8 := ascii ['s', 't', 'o', 'p', '\n']

/-- As `monitor_init` leaves it, with a thread. -/
def running : TaskMonitorSysfs.Module :=
  { ({} : TaskMonitorSysfs.Module).kthreadRun 0x3000 with run := true }

theorem sysfsStore_understands_stop :
    taskMonitor.Understands TaskMonitorSysfs.sysfsStore (fun _ => 0x4000) running stopText
      ∧ taskMonitor2.Understands TaskMonitor2.sysfsStore (fun _ => 0x4000) loadedModule stopText := by
  have hbuf : stopText ≠ [] := by decide
  have hrunning : running.myString.drop 255 = [0] := by decide
  have hloaded : loadedModule.myString.drop 255 = [0] := by decide
  obtain ⟨hfirst, hsecond⟩ := sysfsStore_understands_iff hbuf (fun _ => 0x4000) hrunning hloaded
  exact ⟨hfirst.mpr (by decide), hsecond.mpr (by decide)⟩

/-- Not a command, and it starts a stopped thread. -/
def starveText : List UInt8 := ascii ['s', 't', 'a', 'r', 'v', 'e', '\n']

def stopped : TaskMonitorSysfs.Module :=
  (TaskMonitorSysfs.sysfsStore running (stopText ++ [0]) null).1

def stopped₂ : TaskMonitor2.Module := (TaskMonitor2.sysfsStore loadedModule (stopText ++ [0]) null).1

theorem not_sysfsStore_understands_starve :
    starveText.length ≤ pageSize - 1 ∧ running.myString.drop 255 = [0]
      ∧ loadedModule.myString.drop 255 = [0]
      ∧ ¬ taskMonitor.Understands TaskMonitorSysfs.sysfsStore (fun _ => 0x4000) stopped starveText
      ∧ ¬ taskMonitor2.Understands TaskMonitor2.sysfsStore (fun _ => 0x4000) stopped₂
        starveText := by
  refine ⟨by decide, by decide, by decide, ?_, ?_⟩
  · rintro ⟨⟨text, heffect⟩, -⟩
    have hrun := congrArg taskMonitor.run heffect
    rw [taskMonitor.run_withString] at hrun
    exact absurd hrun (by decide)
  · rintro ⟨⟨text, heffect⟩, -⟩
    have hrun := congrArg taskMonitor2.run heffect
    rw [taskMonitor2.run_withString] at hrun
    exact absurd hrun (by decide)

end Pnl.SysfsStore
