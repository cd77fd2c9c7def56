import Mathlib.Data.Nat.Pairing
import Pnl.Lib.Fairness
import Pnl.Proof.IoctlOwnership
import Pnl.TaskMonitorIoctlThreads

/-!
# The monitor thread next to the ioctls

Nothing but `kthread_stop` keeps a thread away from the `task_monitor` that an ioctl replaces. It is
enough: what the threads read is written only while none is alive, and a thread is started only when
all of it has been written. So the accesses of a thread may fall between any two of an ioctl's, and
what the ioctls do is what they do undisturbed. And `kthread_stop` always returns: a thread that was
asked to stop is at most seven accesses from its end.
-/

namespace Pnl.TaskMonitorIoctl

open Bytes Fairness Kthreads Runs Sleepers TaskMonitor

/-- A thread may read `tm`. -/
structure Driver.Readable (d : Driver) : Prop where
  allocated : d.tm ∈ d.tms
  held : d.pidRefs (d.pidOf d.tm) ≠ 0

/-- No fault but the stores that `WHO` and `GET_SAMPLE` always make past their literals. -/
def Driver.Clean (d : Driver) : Prop := ∀ f ∈ d.faults, f = .strayStore

/-- The access comes when it may: if it writes what threads read, while no thread is alive. -/
def Op.Safe (d : Driver) : Op → Prop
  | .kthreadStop => d.monitorThread ∈ d.alive
  | .putPid => d.alive = ∅ ∧ d.tm ≠ null ∧ d.Readable
  | .kfree => d.alive = ∅ ∧ d.tm ∈ d.tms
  | .findGetPid _ => d.alive = ∅
  | .kmalloc tm _ => d.alive = ∅ ∧ tm ≠ null
  | .storePid _ => d.alive = ∅ ∧ d.tm ≠ null
  | .kthreadRun _ => d.alive = ∅ ∧ d.Readable
  | .whole call => call.Plain ∧ d.tm ≠ null ∧ d.Readable
  | .setValue _ | .setTarget | .setRun _ => True

/-! ### What an access leaves alone -/

theorem readTm_of_mem {d : Driver} (htm : d.tm ∈ d.tms) : d.readTm = d := if_pos htm

theorem clean_store {d : Driver} (hclean : d.Clean) (off : Nat) (bytes : List UInt8) :
    (d.store off bytes).Clean := by
  unfold Driver.store
  dsimp only
  split_ifs
  · exact hclean
  · intro f hf
    rcases List.mem_cons.mp hf with rfl | hf
    · rfl
    · exact hclean f hf

theorem clean_plain {d : Driver} (hclean : d.Clean) {call : Ioctl} (hcall : call.Plain)
    (htm : d.tm ≠ null) (hread : d.Readable) : (step d call).Clean := by
  cases call with
  | wrValue arg => exact hclean
  | rdValue room => exact hclean
  | hello room => exact hclean
  | who arg => exact clean_store hclean _ _
  | getSample task stack room =>
      unfold step etxIoctl
      dsimp only
      rw [if_neg htm, readTm_of_mem hread.allocated]
      exact clean_store hclean _ _
  | getSampleStruct task room =>
      unfold step etxIoctl
      dsimp only
      rw [if_neg htm, readTm_of_mem hread.allocated]
      exact hclean
  | taskmonStop => exact absurd hcall not_false
  | taskmonStart thread => exact absurd hcall not_false
  | taskmonSetPid arg pid kmalloc thread => exact absurd hcall not_false
  | other => exact hclean

theorem plain_ne_setPid {call : Ioctl} (hcall : call.Plain) (arg : List UInt8) (pid : Option Pid)
    (kmalloc thread : Addr) : call ≠ .taskmonSetPid arg pid kmalloc thread := by
  rintro rfl
  exact hcall

theorem readable_plain {d : Driver} {call : Ioctl} (hcall : call.Plain) (hread : d.Readable) :
    (step d call).Readable := by
  have hsame := sameTm_step d (plain_ne_setPid hcall)
  refine ⟨?_, ?_⟩
  · rw [hsame.tms, hsame.tm]
    exact hread.allocated
  · rw [hsame.pidRefs, hsame.pidOf, hsame.tm]
    exact hread.held

theorem putPid_of_readable {d : Driver} (hread : d.Readable) :
    d.putPid = { d with
      pidRefs := Function.update d.pidRefs (d.pidOf d.tm) (d.pidRefs (d.pidOf d.tm) - 1) } := by
  unfold Driver.putPid
  rw [readTm_of_mem hread.allocated]
  exact if_neg hread.held

theorem clean_run {d : Driver} (hclean : d.Clean) {op : Op} (hsafe : op.Safe d) :
    (op.run d).Clean := by
  cases op with
  | kthreadStop =>
      rw [Op.run, Driver.kthreadStop, if_pos (show d.monitorThread ∈ d.alive from hsafe)]
      exact hclean
  | putPid =>
      obtain ⟨-, htm, hread⟩ := hsafe
      rw [Op.run, if_neg htm, putPid_of_readable hread]
      exact hclean
  | kfree =>
      rw [Op.run, Driver.kfree, if_pos hsafe.2]
      exact hclean
  | setValue value => exact hclean
  | findGetPid p => exact hclean
  | kmalloc tm pid => exact hclean
  | storePid p =>
      rw [Op.run, if_neg hsafe.2]
      exact hclean
  | setTarget => exact hclean
  | kthreadRun thread => exact hclean
  | setRun run => exact hclean
  | whole call => exact clean_plain hclean hsafe.1 hsafe.2.1 hsafe.2.2

/-- An access other than a stop or a start leaves the threads alone, and what they read unless none
is alive. -/
theorem run_spares_threads {d : Driver} {op : Op} (hsafe : op.Safe d) (hstop : op ≠ .kthreadStop)
    (hstart : ∀ thread, op ≠ .kthreadRun thread) :
    (op.run d).alive = d.alive
      ∧ (d.alive = ∅ ∨ (op.run d).tm = d.tm ∧ (d.Readable → (op.run d).Readable)) := by
  cases op with
  | kthreadStop => exact absurd rfl hstop
  | putPid =>
      obtain ⟨halive, htm, hread⟩ := hsafe
      rw [Op.run, if_neg htm, putPid_of_readable hread]
      exact ⟨rfl, Or.inl halive⟩
  | kfree =>
      rw [Op.run, Driver.kfree, if_pos hsafe.2]
      exact ⟨rfl, Or.inl hsafe.1⟩
  | setValue value => exact ⟨rfl, Or.inr ⟨rfl, fun hread => ⟨hread.allocated, hread.held⟩⟩⟩
  | findGetPid p => exact ⟨rfl, Or.inl hsafe⟩
  | kmalloc tm pid => exact ⟨rfl, Or.inl hsafe.1⟩
  | storePid p =>
      rw [Op.run, if_neg hsafe.2]
      exact ⟨rfl, Or.inl hsafe.1⟩
  | setTarget => exact ⟨rfl, Or.inr ⟨rfl, fun hread => ⟨hread.allocated, hread.held⟩⟩⟩
  | kthreadRun thread => exact absurd rfl (hstart thread)
  | setRun run => exact ⟨rfl, Or.inr ⟨rfl, fun hread => ⟨hread.allocated, hread.held⟩⟩⟩
  | whole call =>
      obtain ⟨hplain, htm, -⟩ := hsafe
      obtain ⟨hthread, hsame⟩ := sameThread_step d hplain
      exact ⟨hthread.alive, Or.inr ⟨hsame, readable_plain hplain⟩⟩

/-! ### The accesses of a call -/

/-- The accesses come when they may, and lead from `d` to `d'`. -/
def Op.Does (d d' : Driver) (ops : List Op) : Prop :=
  StepsMeet Op.run (fun d op => op.Safe d) d ops ∧ final Op.run d ops = d'

theorem does_nil (d : Driver) : Op.Does d d [] := ⟨trivial, rfl⟩

theorem does_cons {d d₁ d' : Driver} {op : Op} {ops : List Op} (hsafe : op.Safe d)
    (hrun : op.run d = d₁) (h : Op.Does d₁ d' ops) : Op.Does d d' (op :: ops) := by
  subst hrun
  exact ⟨⟨hsafe, h.1⟩, h.2⟩

theorem readable_of_own {d : Driver} (hown : d.OwnInv) : d.Readable := by
  have howned := OwnInv.owned hown
  exact ⟨howned.allocated, by rw [howned.held]; exact Nat.one_ne_zero⟩

theorem putPid_of_own {d : Driver} (hown : d.OwnInv) :
    d.putPid = { d with pidRefs := fun _ => 0 } := by
  rw [putPid_of_readable (readable_of_own hown)]
  congr 1
  funext p
  rw [Function.update_apply, hown.pidRefs]
  split_ifs with hp
  · simp
  · exact if_neg hp

section Ops

variable {d : Driver} (hthread : d.ThreadInv)

include hthread

theorem alive_of_run (hrun : d.run = true) : d.monitorThread ∈ d.alive := by
  rw [hthread.alive, if_pos hrun]
  exact Finset.mem_singleton_self _

theorem does_stop (fresh : Pid) :
    Op.Does d (step d .taskmonStop) (Ioctl.taskmonStop.ops fresh d) := by
  rw [step_taskmonStop, Ioctl.ops]
  split_ifs with hrun
  · refine does_cons (alive_of_run hthread hrun) rfl ?_
    exact does_cons trivial rfl (does_nil _)
  · exact does_nil d

variable (hown : d.OwnInv)

include hown

theorem does_start (fresh : Pid) (thread : Addr) :
    Op.Does d (step d (.taskmonStart thread)) ((Ioctl.taskmonStart thread).ops fresh d) := by
  rw [step_taskmonStart, Ioctl.ops]
  split_ifs with hrun
  · exact does_nil d
  · have halive : d.alive = ∅ := by rw [hthread.alive, if_neg hrun]
    refine does_cons ⟨halive, readable_of_own hown⟩ rfl ?_
    exact does_cons trivial rfl (does_nil _)

/-- What both `TASKMON_SET_PID` and the exit begin with. -/
theorem does_release (hrun : d.run = true) {d' : Driver} {ops : List Op}
    (h : Op.Does { d with alive := ∅, pidRefs := fun _ => 0, tms := ∅ } d' ops) :
    Op.Does d d' (.kthreadStop :: .putPid :: .kfree :: ops) := by
  have hown' : Driver.OwnInv { d with alive := ∅ } :=
    ⟨hown.tm, hown.tms, hown.pidRefs, hown.frees, hown.puts⟩
  have hread := readable_of_own hown'
  refine does_cons (alive_of_run hthread hrun) (kthreadStop_of_run hthread hrun) ?_
  refine does_cons ⟨rfl, hown.tm, hread⟩ ((if_neg hown.tm).trans (putPid_of_own hown')) ?_
  refine does_cons ⟨rfl, hread.allocated⟩ ?_ h
  rw [Op.run, Driver.kfree, if_pos hread.allocated]
  dsimp only
  rw [hown.tms, Finset.erase_singleton]

theorem does_setPid (fresh : Pid) (arg : List UInt8) (p : Pid) {kmalloc : Addr} (thread : Addr)
    (hrun : d.run = true) (hkmalloc : kmalloc ≠ null) :
    Op.Does d (step d (.taskmonSetPid arg (some p) kmalloc thread))
      (Ioctl.ops fresh d (.taskmonSetPid arg (some p) kmalloc thread)) := by
  apply does_release hthread hown hrun
  rw [step, setPid_some hown.tm, if_neg hkmalloc, teardown_eq hown, kthreadStop_of_run hthread hrun]
  refine does_cons trivial rfl ?_
  refine does_cons rfl rfl ?_
  refine does_cons ⟨rfl, hkmalloc⟩ rfl ?_
  refine does_cons ⟨rfl, hkmalloc⟩ (if_neg hkmalloc) ?_
  refine does_cons trivial rfl ?_
  refine does_cons ⟨rfl, ?_, ?_⟩ ?_ (does_nil _)
  · simp [Op.run, hkmalloc]
  · simp [Op.run]
  · simp [Op.run, monitorPid, hkmalloc]

theorem monitorExit_eq (hrun : d.run = true) :
    monitorExit d = { d with alive := ∅, pidRefs := fun _ => 0, tms := ∅ } := by
  have hfree := putPid_kfree (OwnInv.congr hown (sameTm_kthreadStop d))
  rw [kthreadStop_of_run hthread hrun] at hfree
  rw [monitorExit, if_pos hthread.thread, kthreadStop_of_run hthread hrun]
  exact (if_neg hown.tm).trans hfree

theorem does_exit (hrun : d.run = true) : Op.Does d (monitorExit d) (exitOps d) := by
  rw [exitOps, if_pos hthread.thread, monitorExit_eq hthread hown hrun]
  exact does_release hthread hown hrun (does_nil _)

/-- **An ioctl that keeps the thread keeps out of its way**, whatever it is. -/
theorem does_ioctl (fresh : Pid) {call : Ioctl} (hkeeps : call.KeepsThread d) :
    Op.Does d (step d call) (call.ops fresh d) := by
  have hwhole : call.Plain → Op.Does d (step d call) [.whole call] := fun hplain =>
    does_cons ⟨hplain, hown.tm, readable_of_own hown⟩ rfl (does_nil _)
  cases call with
  | taskmonStop => exact does_stop hthread fresh
  | taskmonStart thread => exact does_start hthread hown fresh thread
  | taskmonSetPid arg pid kmalloc thread =>
      obtain ⟨hrun, hpid, hkmalloc⟩ := hkeeps
      obtain ⟨p, rfl⟩ := Option.ne_none_iff_exists'.mp hpid
      exact does_setPid hthread hown fresh arg p thread hrun hkmalloc
  | wrValue arg => exact hwhole trivial
  | rdValue room => exact hwhole trivial
  | hello room => exact hwhole trivial
  | who arg => exact hwhole trivial
  | getSample task stack room => exact hwhole trivial
  | getSampleStruct task room => exact hwhole trivial
  | other => exact hwhole trivial

end Ops

theorem findsPid_of_keeps {d : Driver} {call : Ioctl} (hkeeps : call.KeepsThread d) :
    call.FindsPid := by
  cases call with
  | taskmonSetPid arg pid kmalloc thread => exact hkeeps.2
  | _ => trivial

/-! ### The accesses of a thread -/

/-- If the thread holds on to a `task_monitor`, it is this one. -/
def Pc.Holds (tm : Addr) : Pc → Prop
  | .pidNr held | .getPidTask held | .notFound held => held = tm
  | _ => True

/-- How many accesses a thread that was asked to stop is away from its end. -/
def Pc.left : Pc → Nat
  | .ended => 0
  | .test => 1
  | .print => 2
  | .notFound _ => 3
  | .getPidTask _ => 4
  | .pidNr _ => 5
  | .call => 6
  | .sleep => 7

/-- No thread is about to read anything but the `task_monitor` there is, and none ends unasked. -/
structure System.Watched (s : System) : Prop where
  readable : ∀ thread ∈ s.d.alive, s.pc thread ≠ .ended →
    s.d.Readable ∧ (s.pc thread).Holds s.d.tm
  ended : ∀ thread ∈ s.d.alive, s.pc thread = .ended → thread ∈ s.stopping

theorem System.read_eq {s : System} {tm : Addr} (hread : s.d.Readable) (htm : tm = s.d.tm) :
    s.read tm = s := by
  subst htm
  exact if_pos ⟨hread.allocated, hread.held⟩

/-- The thread may go on to `pc`: nearer to its end if it was asked to stop. -/
structure System.Onward (s : System) (thread : Addr) (pc : Pc) : Prop where
  holds : pc.Holds s.d.tm
  ended : pc = .ended → thread ∈ s.stopping
  nearer : thread ∈ s.stopping → pc.left < (s.pc thread).left

/-- **What one access of a thread does**: nothing but move the thread onward. -/
theorem turn_cases {s : System} (hs : s.Watched) (hz : UInt32) (thread : Addr) {a : Answers}
    (ha : a.frequency ≠ 0) :
    ((thread ∉ s.d.alive ∨ s.pc thread = .ended) ∧ s.turn hz thread a = s)
      ∨ (thread ∈ s.d.alive ∧ s.pc thread ≠ .ended
        ∧ ∃ pc, s.turn hz thread a = s.goto thread pc ∧ s.Onward thread pc) := by
  by_cases halive : thread ∈ s.d.alive
  swap
  · refine Or.inl ⟨Or.inl halive, ?_⟩
    simp only [System.turn, halive, not_false_eq_true, if_true]
  by_cases hended : s.pc thread = .ended
  · refine Or.inl ⟨Or.inr hended, ?_⟩
    simp only [System.turn, halive, not_true_eq_false, if_false, hended]
  obtain ⟨hread, hholds⟩ := hs.readable thread halive hended
  refine Or.inr ⟨halive, hended, ?_⟩
  have hturn := System.turn.eq_def hz s thread a
  rw [if_neg (not_not_intro halive)] at hturn
  cases hpc : s.pc thread with
  | test =>
      simp only [hpc] at hturn
      refine ⟨_, hturn, ?_⟩
      split_ifs with hstop
      · exact ⟨trivial, fun _ => hstop, fun _ => by simp [hpc, Pc.left]⟩
      · exact ⟨trivial, fun h => Pc.noConfusion h, fun h => absurd h hstop⟩
  | sleep =>
      have htimeout : monitorTimeout hz a.frequency ≠ none := by simp [monitorTimeout, div, ha]
      simp only [hpc, if_neg htimeout] at hturn
      split_ifs at hturn with hwoken
      · exact ⟨_, hturn, trivial, fun _ => hwoken.2, fun _ => by simp [hpc, Pc.left]⟩
      · exact ⟨_, hturn, trivial, fun h => Pc.noConfusion h, fun _ => by simp [hpc, Pc.left]⟩
  | call =>
      simp only [hpc] at hturn
      exact ⟨_, hturn, rfl, fun h => Pc.noConfusion h, fun _ => by simp [hpc, Pc.left]⟩
  | pidNr tm =>
      rw [hpc] at hholds
      simp only [hpc, System.read_eq hread hholds] at hturn
      exact ⟨_, hturn, hholds, fun h => Pc.noConfusion h, fun _ => by simp [hpc, Pc.left]⟩
  | getPidTask tm =>
      rw [hpc] at hholds
      simp only [hpc, System.read_eq hread hholds] at hturn
      refine ⟨_, hturn, ?_⟩
      split_ifs
      · exact ⟨trivial, fun h => Pc.noConfusion h, fun _ => by simp [hpc, Pc.left]⟩
      · exact ⟨hholds, fun h => Pc.noConfusion h, fun _ => by simp [hpc, Pc.left]⟩
  | notFound tm =>
      rw [hpc] at hholds
      simp only [hpc, System.read_eq hread hholds] at hturn
      exact ⟨_, hturn, trivial, fun h => Pc.noConfusion h, fun _ => by simp [hpc, Pc.left]⟩
  | print =>
      simp only [hpc] at hturn
      exact ⟨_, hturn, trivial, fun h => Pc.noConfusion h, fun _ => by simp [hpc, Pc.left]⟩
  | ended => exact absurd hpc hended

@[simp]
theorem goto_pc_self (s : System) (thread : Addr) (pc : Pc) : (s.goto thread pc).pc thread = pc := by
  simp [System.goto]

theorem goto_pc_of_ne (s : System) {t thread : Addr} (h : t ≠ thread) (pc : Pc) :
    (s.goto thread pc).pc t = s.pc t := by
  simp [System.goto, h]

theorem System.Watched.goto {s : System} (hs : s.Watched) {thread : Addr} {pc : Pc}
    (hpc : s.Onward thread pc) (hended : s.pc thread ≠ .ended) : (s.goto thread pc).Watched := by
  refine ⟨fun t ht hpct => ?_, fun t ht hpct => ?_⟩
  · by_cases htt : t = thread
    · subst htt
      rw [goto_pc_self]
      exact ⟨(hs.readable t ht hended).1, hpc.holds⟩
    · rw [goto_pc_of_ne s htt] at hpct ⊢
      exact hs.readable t ht hpct
  · by_cases htt : t = thread
    · subst htt
      rw [goto_pc_self] at hpct
      exact hpc.ended hpct
    · rw [goto_pc_of_ne s htt] at hpct
      exact hs.ended t ht hpct

/-! ### The invariant -/

/-- What the driver is after the calls to come. -/
def complete (d : Driver) (calls : List Ioctl) (unload : Bool) : Driver :=
  if unload then monitorExit (Runs.final step d calls) else Runs.final step d calls

/-- Between two calls the driver is in order, and the calls to come keep it so; or there are none. -/
def Ready (d : Driver) (calls : List Ioctl) (unload : Bool) : Prop :=
  (d.ThreadInv ∧ d.OwnInv ∧ StepsMeet step (fun d call => call.Fresh d ∧ call.KeepsThread d) d calls
      ∧ (unload = true → (Runs.final step d calls).run = true))
    ∨ calls = [] ∧ unload = false

structure System.Inv (s : System) (d' : Driver) : Prop where
  watched : s.Watched
  reads : s.badReads = 0
  clean : s.d.Clean
  one : s.d.alive.card ≤ 1
  safe : StepsMeet Op.run (fun d op => op.Safe d) s.d s.ops
  stopping : s.stopping = ∅ ∨ ∃ ops, s.ops = .kthreadStop :: ops ∧ s.stopping = {s.d.monitorThread}
  ready : Ready (Runs.final Op.run s.d s.ops) s.calls s.unload
  outcome : complete (Runs.final Op.run s.d s.ops) s.calls s.unload = d'

theorem System.Inv.turn {s : System} {d' : Driver} (hs : s.Inv d') (hz : UInt32) (thread : Addr)
    {a : Answers} (ha : a.frequency ≠ 0) : (s.turn hz thread a).Inv d' := by
  rcases turn_cases hs.watched hz thread ha with ⟨-, hturn⟩ | ⟨-, hended, pc, hturn, hpc⟩
  · rw [hturn]
    exact hs
  · rw [hturn]
    exact ⟨hs.watched.goto hpc hended, hs.reads, hs.clean, hs.one, hs.safe, hs.stopping, hs.ready,
      hs.outcome⟩

/-- While no call is under way nobody is asked to stop. -/
theorem System.Inv.stopping_of_ne {s : System} {d' : Driver} (hs : s.Inv d')
    (hops : ∀ ops, s.ops ≠ .kthreadStop :: ops) : s.stopping = ∅ := by
  rcases hs.stopping with hnone | ⟨ops, heq, -⟩
  · exact hnone
  · exact absurd heq (hops ops)

/-- The next call. -/
theorem System.Inv.begin {s : System} {d' : Driver} (hs : s.Inv d') (fresh : Pid) (hops : s.ops = []) :
    (s.own fresh).Inv d' := by
  have hstopping := hs.stopping_of_ne (by simp [hops])
  have hready := hs.ready
  have houtcome := hs.outcome
  rw [hops] at hready houtcome
  change Ready s.d s.calls s.unload at hready
  change complete s.d s.calls s.unload = d' at houtcome
  have hbegin : ∀ ops calls unload d'', Op.Does s.d d'' ops → Ready d'' calls unload →
      complete d'' calls unload = d' →
      System.Inv { s with ops := ops, calls := calls, unload := unload } d' := by
    rintro ops calls unload d'' ⟨hsafe, rfl⟩ hready' houtcome'
    exact ⟨⟨hs.watched.readable, hs.watched.ended⟩, hs.reads, hs.clean, hs.one, hsafe,
      Or.inl hstopping, hready', houtcome'⟩
  cases hcalls : s.calls with
  | cons call calls =>
      rw [hcalls] at hready houtcome
      rcases hready with ⟨hthread, hown, ⟨⟨hfresh, hkeeps⟩, hrest⟩, hunload⟩ | ⟨hnil, -⟩
      · have hbegun : s.own fresh = { s with ops := call.ops fresh s.d, calls := calls } := by
          simp only [System.own, hops, hcalls]
        rw [hbegun]
        refine hbegin _ _ _ _ (does_ioctl hthread hown fresh hkeeps) (Or.inl ?_) houtcome
        refine ⟨(ThreadInv.step_iff hthread hfresh).2 hkeeps, ?_, hrest, hunload⟩
        exact (OwnInv.step_iff hown call).2 (findsPid_of_keeps hkeeps)
      · exact absurd hnil (List.cons_ne_nil call calls)
  | nil =>
      rw [hcalls] at hready houtcome
      cases hunload : s.unload with
      | true =>
          rw [hunload] at hready houtcome
          rcases hready with ⟨hthread, hown, -, hrun⟩ | ⟨-, hfalse⟩
          · have hbegun : s.own fresh = { s with ops := exitOps s.d, calls := [], unload := false } := by
              simp only [System.own, hops, hcalls, hunload, if_true]
            rw [hbegun]
            exact hbegin _ _ _ _ (does_exit hthread hown (hrun rfl)) (Or.inr ⟨rfl, rfl⟩) houtcome
          · exact absurd hfalse (by simp)
      | false =>
          have hbegun : s.own fresh = s := by
            simp only [System.own, hops, hcalls, hunload, Bool.false_eq_true, if_false]
          rw [hbegun]
          exact hs

/-- `kthread_stop` asks a thread that has not ended, waits for it, and returns. -/
theorem stop_cases {s : System} {d' : Driver} (hs : s.Inv d') {ops : List Op}
    (hops : s.ops = .kthreadStop :: ops) :
    s.d.monitorThread ∈ s.d.alive
      ∧ ((s.d.monitorThread ∉ s.stopping
            ∧ s.stop ops = { s with stopping := insert s.d.monitorThread s.stopping })
        ∨ (s.d.monitorThread ∈ s.stopping ∧ s.pc s.d.monitorThread ≠ .ended ∧ s.stop ops = s)
        ∨ (s.d.monitorThread ∈ s.stopping ∧ s.pc s.d.monitorThread = .ended
            ∧ s.stop ops = { s with
                d := s.d.kthreadStop
                stopping := s.stopping.erase s.d.monitorThread
                ops := ops })) := by
  have hsafe := hs.safe
  rw [hops] at hsafe
  have halive : s.d.monitorThread ∈ s.d.alive := hsafe.1
  refine ⟨halive, ?_⟩
  by_cases hstop : s.d.monitorThread ∈ s.stopping
  · by_cases hended : s.pc s.d.monitorThread = .ended
    · exact Or.inr (Or.inr ⟨hstop, hended, by simp only [System.stop, hstop, hended, if_true]⟩)
    · exact Or.inr (Or.inl ⟨hstop, hended, by simp only [System.stop, hstop, hended, if_true, if_false]⟩)
  · have hpc : s.pc s.d.monitorThread ≠ .ended := fun hended =>
      hstop (hs.watched.ended _ halive hended)
    refine Or.inl ⟨hstop, ?_⟩
    rw [System.stop, if_neg hstop, if_pos ⟨halive, hpc⟩]

theorem System.Inv.stop {s : System} {d' : Driver} (hs : s.Inv d') {ops : List Op}
    (hops : s.ops = .kthreadStop :: ops) : (s.stop ops).Inv d' := by
  have hsafe := hs.safe
  have hready := hs.ready
  have houtcome := hs.outcome
  rw [hops] at hsafe hready houtcome
  have hstopping : s.stopping = ∅ ∨ s.stopping = {s.d.monitorThread} := by
    rcases hs.stopping with hnone | ⟨-, -, hone⟩
    · exact Or.inl hnone
    · exact Or.inr hone
  obtain ⟨halive, ⟨hstop, heq⟩ | ⟨-, -, heq⟩ | ⟨hstop, hended, heq⟩⟩ := stop_cases hs hops
  · have hnone : s.stopping = ∅ := by
      rcases hstopping with hnone | hone
      · exact hnone
      · exact absurd (hone ▸ Finset.mem_singleton_self _) hstop
    rw [heq]
    refine ⟨⟨hs.watched.readable, fun t ht hpc => ?_⟩, hs.reads, hs.clean, hs.one, hs.safe,
      Or.inr ⟨ops, hops, ?_⟩, hs.ready, hs.outcome⟩
    · exact Finset.mem_insert_of_mem (hs.watched.ended t ht hpc)
    · rw [hnone]
      rfl
  · rw [heq]
    exact hs
  · have hone : s.stopping = {s.d.monitorThread} := by
      rcases hstopping with hnone | hone
      · rw [hnone] at hstop
        exact absurd hstop (Finset.notMem_empty _)
      · exact hone
    have hclean := clean_run hs.clean hsafe.1
    have hd : s.d.kthreadStop = { s.d with alive := s.d.alive.erase s.d.monitorThread } :=
      if_pos halive
    rw [heq]
    refine ⟨⟨fun t ht hpc => ?_, fun t ht hpc => ?_⟩, hs.reads, hclean, ?_, hsafe.2, Or.inl ?_, hready,
      houtcome⟩
    · rw [hd] at ht ⊢
      obtain ⟨⟨hallocated, hheld⟩, hholds⟩ := hs.watched.readable t (Finset.mem_of_mem_erase ht) hpc
      exact ⟨⟨hallocated, hheld⟩, hholds⟩
    · rw [hd] at ht
      have hmem := hs.watched.ended t (Finset.mem_of_mem_erase ht) hpc
      rw [hone, Finset.mem_singleton] at hmem
      exact absurd hmem (Finset.ne_of_mem_erase ht)
    · rw [hd]
      exact (Finset.card_erase_le).trans hs.one
    · rw [hone, Finset.erase_singleton]

/-- Any other access of the driver. -/
theorem System.Inv.access {s : System} {d' : Driver} (hs : s.Inv d') (fresh : Pid) {op : Op}
    {ops : List Op} (hops : s.ops = op :: ops) (hop : op ≠ .kthreadStop) : (s.own fresh).Inv d' := by
  have hstopping := hs.stopping_of_ne fun ops' h => hop (List.cons.inj (hops.symm.trans h)).1
  have hsafe := hs.safe
  have hready := hs.ready
  have houtcome := hs.outcome
  rw [hops] at hsafe hready houtcome
  have hclean := clean_run hs.clean hsafe.1
  by_cases hstart : ∃ thread, op = .kthreadRun thread
  · obtain ⟨thread, rfl⟩ := hstart
    obtain ⟨halive, hallocated, hheld⟩ := hsafe.1
    have hread : (s.d.kthreadRun thread).Readable := ⟨hallocated, hheld⟩
    cases herr : isErr thread with
    | true =>
        have hown : s.own fresh = { s with d := s.d.kthreadRun thread, ops := ops } := by
          simp only [System.own, hops, herr, if_true]
        have hnone : (s.d.kthreadRun thread).alive = ∅ := by
          rw [Driver.kthreadRun, herr, if_pos rfl, halive]
        rw [hown]
        refine ⟨⟨fun t ht _ => ?_, fun t ht _ => ?_⟩, hs.reads, hclean, ?_, hsafe.2,
          Or.inl hstopping, hready, houtcome⟩
        · exact absurd (hnone ▸ ht) (Finset.notMem_empty t)
        · exact absurd (hnone ▸ ht) (Finset.notMem_empty t)
        · rw [hnone]
          exact Nat.zero_le 1
    | false =>
        have hown : s.own fresh
            = System.goto { s with d := s.d.kthreadRun thread, ops := ops } thread .test := by
          simp only [System.own, hops, herr, Bool.false_eq_true, if_false]
        have hone : (s.d.kthreadRun thread).alive = {thread} := by
          rw [Driver.kthreadRun, herr, if_neg Bool.false_ne_true, halive]
          rfl
        rw [hown]
        refine ⟨⟨fun t ht _ => ?_, fun t ht hpc => ?_⟩, hs.reads, hclean, ?_, hsafe.2,
          Or.inl hstopping, hready, houtcome⟩
        · obtain rfl := Finset.mem_singleton.mp (hone ▸ ht)
          rw [goto_pc_self]
          exact ⟨hread, trivial⟩
        · obtain rfl := Finset.mem_singleton.mp (hone ▸ ht)
          rw [goto_pc_self] at hpc
          exact absurd hpc (by simp)
        · exact (congrArg Finset.card hone).le
  · have hown : s.own fresh = { s with d := op.run s.d, ops := ops } := by
      cases op with
      | kthreadStop => exact absurd rfl hop
      | kthreadRun thread => exact absurd ⟨thread, rfl⟩ hstart
      | _ => simp only [System.own, hops]
    obtain ⟨halive, hkept⟩ := run_spares_threads hsafe.1 hop fun thread h => hstart ⟨thread, h⟩
    rw [hown]
    refine ⟨⟨fun t ht hpc => ?_, fun t ht hpc => ?_⟩, hs.reads, hclean, ?_, hsafe.2,
      Or.inl hstopping, hready, houtcome⟩
    · dsimp only at ht
      rw [halive] at ht
      obtain ⟨hread, hholds⟩ := hs.watched.readable t ht hpc
      rcases hkept with hnone | ⟨htm, hkeep⟩
      · rw [hnone] at ht
        exact absurd ht (Finset.notMem_empty t)
      · exact ⟨hkeep hread, htm ▸ hholds⟩
    · dsimp only at ht
      rw [halive] at ht
      exact hs.watched.ended t ht hpc
    · dsimp only
      rw [halive]
      exact hs.one

theorem System.Inv.own {s : System} {d' : Driver} (hs : s.Inv d') (fresh : Pid) :
    (s.own fresh).Inv d' := by
  cases hops : s.ops with
  | nil => exact hs.begin fresh hops
  | cons op ops =>
      by_cases hop : op = .kthreadStop
      · subst hop
        have hown : s.own fresh = s.stop ops := by simp only [System.own, hops]
        rw [hown]
        exact hs.stop hops
      · exact hs.access fresh hops hop

theorem System.Inv.happens {s : System} {d' : Driver} (hs : s.Inv d') (hz : UInt32) (fresh : Pid)
    {event : Event} (hevent : event.Divides) : (happens hz fresh s event).Inv d' := by
  cases event with
  | own => exact hs.own fresh
  | turn thread answers => exact hs.turn hz thread hevent

/-! ### What is left to do -/

def Op.cost : Op → Nat
  | .kthreadStop => 2
  | _ => 1

/-- At least as many accesses as the calls still owe. -/
def System.owed (s : System) : Nat :=
  (s.ops.map Op.cost).sum + 24 * s.calls.length + if s.unload then 24 else 0

/-- How long the thread that is asked to stop may take; `8` if none is. -/
def System.awaited (s : System) : Nat :=
  if s.d.monitorThread ∈ s.stopping then (s.pc s.d.monitorThread).left else 8

def System.rank (s : System) : Nat := 8 * s.owed + s.awaited

/-- Who gets on with the calls: the thread they wait for, or the driver itself. -/
def System.helpful (s : System) : Option Addr :=
  if s.d.monitorThread ∈ s.stopping ∧ s.pc s.d.monitorThread ≠ .ended then some s.d.monitorThread
  else none

/-- Who makes the access. -/
def Event.actor : Event → Option Addr
  | .own => none
  | .turn thread _ => some thread

theorem left_le_seven (pc : Pc) : pc.left ≤ 7 := by cases pc <;> simp [Pc.left]

theorem cost_ops_le (fresh : Pid) (d : Driver) (call : Ioctl) :
    ((call.ops fresh d).map Op.cost).sum ≤ 10 := by
  cases call with
  | taskmonStop =>
      rw [Ioctl.ops]
      split_ifs <;> simp [Op.cost]
  | taskmonStart thread =>
      rw [Ioctl.ops]
      split_ifs <;> simp [Op.cost]
  | taskmonSetPid arg pid kmalloc thread => cases pid <;> simp [Ioctl.ops, Op.cost]
  | _ => simp [Ioctl.ops, Op.cost]

theorem cost_exitOps_le (d : Driver) : ((exitOps d).map Op.cost).sum ≤ 4 := by
  rw [exitOps]
  split_ifs <;> simp [Op.cost]

theorem one_le_cost (op : Op) : 1 ≤ op.cost := by cases op <;> simp [Op.cost]

theorem awaited_of_mem {s : System} (h : s.d.monitorThread ∈ s.stopping) :
    s.awaited = (s.pc s.d.monitorThread).left := if_pos h

theorem awaited_of_notMem {s : System} (h : s.d.monitorThread ∉ s.stopping) : s.awaited = 8 :=
  if_neg h

theorem awaited_le (s : System) : s.awaited ≤ 8 := by
  have hleft := left_le_seven (s.pc s.d.monitorThread)
  unfold System.awaited
  split_ifs <;> omega

theorem own_access {s : System} (fresh : Pid) {op : Op} {ops : List Op} (hops : s.ops = op :: ops)
    (hop : op ≠ .kthreadStop) :
    (s.own fresh).ops = ops ∧ (s.own fresh).calls = s.calls ∧ (s.own fresh).unload = s.unload
      ∧ (s.own fresh).stopping = s.stopping := by
  cases op with
  | kthreadStop => exact absurd rfl hop
  | kthreadRun thread =>
      cases herr : isErr thread <;> simp [System.own, hops, herr, System.goto]
  | _ => simp [System.own, hops]

section Rank

variable {s : System} {d' : Driver} (hs : s.Inv d')

include hs

/-- While the calls wait for a thread, it is alive and nothing else happens. -/
theorem waits_for {thread : Addr} (hhelpful : s.helpful = some thread) (fresh : Pid) :
    thread = s.d.monitorThread ∧ thread ∈ s.stopping ∧ thread ∈ s.d.alive ∧ s.pc thread ≠ .ended
      ∧ s.own fresh = s := by
  rw [System.helpful] at hhelpful
  split_ifs at hhelpful with hwait
  obtain rfl : s.d.monitorThread = thread := Option.some.inj hhelpful
  obtain ⟨hstop, hpc⟩ := hwait
  rcases hs.stopping with hnone | ⟨ops, hops, -⟩
  · rw [hnone] at hstop
    exact absurd hstop (Finset.notMem_empty _)
  · obtain ⟨halive, ⟨hnot, -⟩ | ⟨-, -, heq⟩ | ⟨-, hended, -⟩⟩ := stop_cases hs hops
    · exact absurd hstop hnot
    · refine ⟨rfl, hstop, halive, hpc, ?_⟩
      simp only [System.own, hops, heq]
    · exact absurd hended hpc

theorem own_lowers (fresh : Pid) (hdone : ¬ s.Done) (hhelpful : s.helpful = none) :
    (s.own fresh).rank < s.rank := by
  have hwait := awaited_le s
  have hbegin : ∀ ops calls unload, (ops.map Op.cost).sum ≤ 10 →
      24 * calls.length + (if unload then 24 else 0) + 24
        ≤ 24 * s.calls.length + (if s.unload then 24 else 0) →
      System.rank { s with ops := ops, calls := calls, unload := unload } < s.rank := by
    intro ops calls unload hcost hless
    have hsame : System.awaited { s with ops := ops, calls := calls, unload := unload } = s.awaited :=
      rfl
    simp only [System.rank, System.owed, hsame]
    omega
  cases hops : s.ops with
  | nil =>
      cases hcalls : s.calls with
      | cons call calls =>
          simp only [System.own, hops, hcalls]
          apply hbegin _ calls s.unload (cost_ops_le fresh s.d call)
          rw [hcalls, List.length_cons]
          omega
      | nil =>
          cases hunload : s.unload with
          | true =>
              simp only [System.own, hops, hcalls, hunload, if_true]
              apply hbegin _ [] false ((cost_exitOps_le s.d).trans (by omega))
              simp [hunload]
          | false => exact absurd ⟨hops, hcalls, hunload⟩ hdone
  | cons op ops =>
      by_cases hop : op = .kthreadStop
      · subst hop
        have hown : s.own fresh = s.stop ops := by simp only [System.own, hops]
        rw [hown]
        obtain ⟨-, ⟨hstop, heq⟩ | ⟨hstop, hpc, -⟩ | ⟨hstop, hended, heq⟩⟩ := stop_cases hs hops
        · -- the request: somebody is waited for now
          rw [heq, System.rank, System.rank, awaited_of_notMem hstop, awaited_of_mem]
          · have hleft := left_le_seven (s.pc s.d.monitorThread)
            exact Nat.add_lt_add_left (Nat.lt_succ_of_le hleft) _
          · exact Finset.mem_insert_self _ _
        · rw [System.helpful, if_pos ⟨hstop, hpc⟩] at hhelpful
          contradiction
        · -- the return
          have hwait' := awaited_le (s.stop ops)
          have howed : (s.stop ops).owed + 2 = s.owed := by
            simp only [heq, System.owed, hops, List.map_cons, List.sum_cons, Op.cost]
            omega
          simp only [System.rank]
          omega
      · have hstopping := hs.stopping_of_ne fun ops' h => hop (List.cons.inj (hops.symm.trans h)).1
        obtain ⟨hops', hcalls', hunload', hstopping'⟩ := own_access fresh hops hop
        have hnone : s.awaited = 8 := awaited_of_notMem (by simp [hstopping])
        have hnone' : (s.own fresh).awaited = 8 := awaited_of_notMem (by simp [hstopping', hstopping])
        have hcost := one_le_cost op
        simp only [System.rank, System.owed, hops, hops', hcalls', hunload', hnone, hnone',
          List.map_cons, List.sum_cons]
        omega

theorem turn_lowers (hz : UInt32) {thread : Addr} {a : Answers} (ha : a.frequency ≠ 0)
    (hhelpful : s.helpful = some thread) : (s.turn hz thread a).rank < s.rank := by
  obtain ⟨hthread, hstop, halive, hpc, -⟩ := waits_for hs hhelpful 0
  rcases turn_cases hs.watched hz thread ha with ⟨hout, -⟩ | ⟨-, -, pc, hturn, honward⟩
  · exact absurd hout (not_or.mpr ⟨not_not_intro halive, hpc⟩)
  · have hnearer := honward.nearer hstop
    subst hthread
    have howed : (s.goto s.d.monitorThread pc).owed = s.owed := rfl
    have hawaited : (s.goto s.d.monitorThread pc).awaited = pc.left := by
      rw [awaited_of_mem (s := s.goto s.d.monitorThread pc) hstop]
      exact congrArg Pc.left (goto_pc_self s _ pc)
    rw [hturn, System.rank, System.rank, howed, hawaited, awaited_of_mem hstop]
    omega

/-- An access of a thread that nobody waits for leaves the rank as it is. -/
theorem turn_waits (hz : UInt32) (thread : Addr) {a : Answers} (ha : a.frequency ≠ 0) :
    (s.turn hz thread a).rank < s.rank
      ∨ (s.turn hz thread a).rank = s.rank ∧ (s.turn hz thread a).helpful = s.helpful := by
  by_cases hhelpful : s.helpful = some thread
  · exact Or.inl (turn_lowers hs hz ha hhelpful)
  · right
    rcases turn_cases hs.watched hz thread ha with ⟨-, hturn⟩ | ⟨-, hended, pc, hturn, -⟩
    · rw [hturn]
      exact ⟨rfl, rfl⟩
    · have hpc : s.d.monitorThread ∈ s.stopping →
          (s.goto thread pc).pc s.d.monitorThread = s.pc s.d.monitorThread := by
        intro hstop
        apply goto_pc_of_ne
        rintro rfl
        exact hhelpful (if_pos ⟨hstop, hended⟩)
      have hd : (s.goto thread pc).d = s.d := rfl
      have hstopping : (s.goto thread pc).stopping = s.stopping := rfl
      have howed : (s.goto thread pc).owed = s.owed := rfl
      rw [hturn]
      by_cases hstop : s.d.monitorThread ∈ s.stopping
      · have hsame := hpc hstop
        refine ⟨?_, ?_⟩
        · rw [System.rank, System.rank, howed, System.awaited, System.awaited, hd, hstopping, hsame]
        · rw [System.helpful, System.helpful, hd, hstopping, hsame]
      · refine ⟨?_, ?_⟩
        · rw [System.rank, System.rank, howed, awaited_of_notMem hstop,
            awaited_of_notMem (s := s.goto thread pc) hstop]
        · rw [System.helpful, System.helpful, hd, hstopping, if_neg fun h => hstop h.1,
            if_neg fun h => hstop h.1]

end Rank

theorem ranked (hz : UInt32) (fresh : Pid) (d' : Driver) :
    Ranked (happens hz fresh) (fun event actor => event.actor = actor) Event.Divides
      (fun s => s.Inv d') System.Done System.rank System.helpful where
  keeps s event hs hevent := hs.happens hz fresh hevent
  helps s event hs hdone hevent hkind := by
    cases event with
    | own => exact own_lowers hs fresh hdone hkind.symm
    | turn thread answers => exact turn_lowers hs hz hevent hkind.symm
  waits s event hs hdone hevent := by
    cases event with
    | own =>
        cases hhelpful : s.helpful with
        | none => exact Or.inl (own_lowers hs fresh hdone hhelpful)
        | some thread =>
            obtain ⟨-, -, -, -, hown⟩ := waits_for hs hhelpful fresh
            right
            rw [happens, hown]
            exact ⟨rfl, hhelpful⟩
    | turn thread answers => exact turn_waits hs hz thread hevent

/-! ### Every schedule -/

/-- No thread reads what is freed, at most one is alive, nothing of the driver's is misused, and when
all calls have returned the driver is what they make of it undisturbed. -/
structure System.Sound (s : System) (d' : Driver) : Prop where
  reads : s.badReads = 0
  one : s.d.alive.card ≤ 1
  clean : s.d.Clean
  result : s.Done → s.d = d'

theorem System.Inv.sound {s : System} {d' : Driver} (hs : s.Inv d') : s.Sound d' := by
  refine ⟨hs.reads, hs.one, hs.clean, ?_⟩
  rintro ⟨hops, hcalls, hunload⟩
  have houtcome := hs.outcome
  rw [hops, hcalls, hunload] at houtcome
  exact houtcome

/-- Nothing of the driver's is left. -/
structure Driver.Gone (d : Driver) : Prop where
  alive : d.alive = ∅
  tms : d.tms = ∅
  pidRefs : ∀ p, d.pidRefs p = 0

section Start

variable {d d₀ : Driver} (hload : d.Loaded) {pid : Option Pid} {kmalloc thread : Addr}
  (hinit : monitorInit d pid kmalloc thread = (d₀, some 0)) (hthread : thread ≠ null)

include hload hinit hthread

theorem start_inOrder : d₀.ThreadInv ∧ d₀.OwnInv ∧ d₀.Clean ∧ d₀.alive.card ≤ 1 := by
  obtain ⟨p, -, hkmalloc, -, hd₀⟩ := monitorInit_eq hinit
  have halive : d.alive = ∅ := by rw [hload.eq]
  have htms : d.tms = ∅ := by rw [hload.eq]
  have hrefs : d.pidRefs = fun _ => 0 := by rw [hload.eq]
  have hfaults : d.faults = [] := by rw [hload.eq]
  rw [hd₀]
  refine ⟨⟨by simp [halive], hthread, hkmalloc, by simp [hfaults]⟩, ?_, ?_, by simp [halive]⟩
  · refine ⟨hkmalloc, by simp [htms], ?_, by simp [hfaults], by simp [hfaults]⟩
    funext q
    by_cases hq : q = p <;> simp [hrefs, hq]
  · simp [Driver.Clean, hfaults]

variable {calls : List Ioctl}
  (hcalls : StepsMeet step (fun d call => call.Fresh d ∧ call.KeepsThread d) d₀ calls)
  {unload : Bool} (hunload : unload = true → (final step d₀ calls).run = true)

include hcalls hunload

theorem inv_start : (System.start d₀ calls unload).Inv (complete d₀ calls unload) := by
  obtain ⟨hthreads, hown, hclean, hone⟩ := start_inOrder hload hinit hthread
  refine ⟨⟨fun t _ _ => ⟨readable_of_own hown, trivial⟩, fun t _ hpc => ?_⟩, rfl, hclean, hone, trivial,
    Or.inl rfl, Or.inl ⟨hthreads, hown, hcalls, hunload⟩, rfl⟩
  exact absurd hpc (by simp [System.start])

/-- **In every interleaving of the thread's accesses with those of the calls, the thread reads only
what is there, and the calls do what they do undisturbed.** -/
theorem interleavings_sound (hz : UInt32) (fresh : Pid) {events : List Event}
    (hevents : ∀ event ∈ events, event.Divides) :
    ∀ s ∈ states (happens hz fresh) (System.start d₀ calls unload) events,
      s.Sound (complete d₀ calls unload) := by
  have hinv := inv_start hload hinit hthread hcalls hunload
  have hkeep : ∀ (s : System) (event : Event), s.Inv (complete d₀ calls unload) → event.Divides →
      (happens hz fresh s event).Inv (complete d₀ calls unload) :=
    fun s event hs hevent => hs.happens hz fresh hevent
  intro s hs
  apply System.Inv.sound
  exact invariant hkeep hinv (stepsMeet_of_mem fun _ event hevent => hevents event hevent) s hs

theorem gone_complete (hexit : unload = true) : (complete d₀ calls unload).Gone := by
  obtain ⟨hthreads, hown, -⟩ := start_inOrder hload hinit hthread
  have hkeep : ∀ (d : Driver) (call : Ioctl), d.ThreadInv ∧ d.OwnInv →
      call.Fresh d ∧ call.KeepsThread d → (step d call).ThreadInv ∧ (step d call).OwnInv :=
    fun d call hd hcall => ⟨(ThreadInv.step_iff hd.1 hcall.1).2 hcall.2,
      (OwnInv.step_iff hd.2 call).2 (findsPid_of_keeps hcall.2)⟩
  obtain ⟨hthreads', hown'⟩ := invariant hkeep ⟨hthreads, hown⟩ hcalls _ final_mem_states
  rw [complete, if_pos hexit, monitorExit_eq hthreads' hown' (hunload hexit)]
  exact ⟨rfl, rfl, fun _ => rfl⟩

/-- **Under every fair schedule all calls return**, the driver is what they make of it undisturbed, and
after the exit nothing is left of it. -/
theorem interleavings_return (hz : UInt32) (fresh : Pid) {schedule : Nat → Event}
    (hschedule : ∀ n, (schedule n).Divides)
    (hfair : Fair (fun event actor => event.actor = actor) schedule) :
    ∃ n s, s = after (happens hz fresh) (System.start d₀ calls unload) schedule n
      ∧ s.Done ∧ s.d = complete d₀ calls unload ∧ (unload = true → s.d.Gone) := by
  have hinv := inv_start hload hinit hthread hcalls hunload
  have hranked := ranked hz fresh (complete d₀ calls unload)
  obtain ⟨n, hdone⟩ := hranked.reaches hinv hschedule hfair
  have hresult := (hranked.inv hinv hschedule n).sound.result hdone
  refine ⟨n, _, rfl, hdone, hresult, fun hexit => ?_⟩
  rw [hresult]
  exact gone_complete hload hinit hthread hcalls hunload hexit

end Start

def stopStartSetPid : List Ioctl :=
  [.taskmonStop, .taskmonStart 48, .taskmonSetPid [7, 0, 0, 0] (some 2) 64 80]

/-- A fair schedule: every actor has the moments of one column of a table. -/
def columns (n : Nat) : Event :=
  match (Nat.unpair n).1 with
  | 0 => .own
  | thread + 1 => .turn thread { frequency := 1, left := 0, found := true }

theorem fair_columns : Fair (fun event actor => event.actor = actor) columns := by
  intro actor n
  cases actor with
  | none => exact ⟨Nat.pair 0 n, Nat.right_le_pair 0 n, by simp [columns, Event.actor]⟩
  | some thread =>
      exact ⟨Nat.pair (thread + 1) n, Nat.right_le_pair (thread + 1) n,
        by simp [columns, Event.actor]⟩

theorem divides_columns (n : Nat) : (columns n).Divides := by
  unfold columns
  split
  · trivial
  · simp [Event.Divides]

/-- The thread is in the middle of a sample when `TASKMON_STOP` asks it to stop. -/
def duringSample : List Event :=
  let turn : Event := .turn 32 { frequency := 1, left := 0, found := true }
  [turn, turn, turn, .own, .own, .own, turn, turn, .own, turn, turn, .own, .own]

theorem interleavings_sound_duringSample :
    (final (happens 250 0) (System.start startedModule stopStartSetPid true) duringSample).Sound
      (complete startedModule stopStartSetPid true) := by
  have hcalls : StepsMeet step (fun d call => call.Fresh d ∧ call.KeepsThread d) startedModule
      stopStartSetPid := by decide
  have hrun : true = true → (final step startedModule stopStartSetPid).run = true := by decide
  have hsound := interleavings_sound loaded_loadedModule monitorInit_loadedModule (by decide) hcalls
    hrun 250 0 (show ∀ event ∈ duringSample, event.Divides by decide)
  exact hsound _ final_mem_states

theorem interleavings_return_columns :
    ∃ n s, s = after (happens 250 0) (System.start startedModule stopStartSetPid true) columns n
      ∧ s.Done ∧ s.d = complete startedModule stopStartSetPid true ∧ (true = true → s.d.Gone) :=
  interleavings_return loaded_loadedModule monitorInit_loadedModule (by decide) (by decide)
    (fun _ => by decide) 250 0 divides_columns fair_columns

end Pnl.TaskMonitorIoctl
