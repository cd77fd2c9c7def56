import Pnl.TaskMonitor2Module
import Pnl.Proof.TaskMonitor2Lifetime

/-!
# What loading acquires, unloading releases

When every call that `monitor_init` checks succeeds, the module holds one of each resource, keeps
them through any sequence of calls, and `monitor_exit` releases each once, as long as it gets that
far with its lists intact. No failing branch gets there: the first two leave behind what was acquired
before them, and the last one reports success after it put the kobject that `monitor_exit` puts again.
-/

namespace Pnl.TaskMonitor2

open Bytes Krefs Kthreads Ledgers Runs

/-- A module with its static variables as the kernel loads them. -/
structure Module.AtRest (md : Module) : Prop where
  eq : md = { state := md.state }
  state : Unloaded md.state

/-- The ledger, with the monitors that `task_monitor_release` freed. -/
def Module.books (md : Module) : Ledger Resource :=
  { md.ledger with
    released := Function.update md.ledger.released .monitor
      (md.ledger.released .monitor + md.state.monitors.freed.length) }

/-- `kmalloc` returns memory, and `kthread_run` a pointer. -/
def InitEnv.Allowed (s : State) (env : InitEnv) : Prop :=
  s.Vacant env.kmalloc sizeofTaskMonitor ∧ env.thread ≠ null

instance InitEnv.decidableAllowed (s : State) (env : InitEnv) : Decidable (env.Allowed s) :=
  inferInstanceAs (Decidable (_ ∧ _))

def InitEnv.Succeeds (env : InitEnv) : Prop :=
  env.pid.isSome = true ∧ isErr env.thread = false ∧ env.sysfsCreateFile = 0

instance InitEnv.decidableSucceeds (env : InitEnv) : Decidable env.Succeeds :=
  inferInstanceAs (Decidable (_ ∧ _ ∧ _))

/-- The module after complete calls of its other functions, and stores of others. -/
def Module.after (md : Module) (deeds : List Deed) : Module :=
  { md with state := final act md.state deeds }

/-- Unloading releases each resource once, and the lists were as they should be until then. -/
def Module.ReleasesOnce (md : Module) : Prop :=
  md.monitorExit.state.Intact
    ∧ ∀ r, md.monitorExit.books.acquired r = 1 ∧ md.monitorExit.books.released r = 1

/-- Loading fails and has released what it acquired, or it succeeds, holds everything, and unloading
releases each resource once after these deeds. -/
def Balanced (md : Module) (env : InitEnv) (deeds : List Deed) : Prop :=
  ∃ md₀ ret, monitorInit md env = (md₀, some ret) ∧
    ((ret ≠ 0 ∧ ∀ r, md₀.books.Settled r)
      ∨ (ret = 0 ∧ (∀ r, md₀.books.Holds r) ∧ (md₀.after deeds).ReleasesOnce))

/-! ### The deletion loop -/

section Exit

variable (md : Module) (ms : List Addr)

theorem exitMonitors_state :
    (md.exitMonitors ms).state = TaskMonitor2.exitMonitors md.state ms := by
  induction ms generalizing md with
  | nil => rfl
  | cons m ms ih =>
      rw [Module.exitMonitors, ih]
      rfl

theorem exitMonitors_ledger :
    (md.exitMonitors ms).ledger = md.ledger.releaseAll (List.replicate ms.length .pid) := by
  induction ms generalizing md with
  | nil => rfl
  | cons m ms ih =>
      rw [Module.exitMonitors, ih]
      rfl

end Exit

/-- What `monitor_exit` releases when it stops a thread and finds `n` monitors. -/
def exitReleases (n : Nat) : List Resource :=
  .thread :: List.replicate n .pid ++ [.kobject, .shrinker, .mempool, .cache, .debugfs, .allTasks]

theorem monitorExit_ledger (md : Module) (hthread : md.monitorThread ≠ null) :
    md.monitorExit.ledger = md.ledger.releaseAll (exitReleases md.state.tasks.length) := by
  rw [Module.monitorExit]
  simp only [ne_eq, hthread, not_false_eq_true, if_true]
  dsimp only [Module.releaseAll]
  rw [exitMonitors_ledger]
  simp only [Module.kthreadStop, List.length_reverse, ← releaseAll_append]
  rw [exitReleases, List.append_assoc, List.append_assoc]
  rfl

theorem monitorExit_state (md : Module) : md.monitorExit.state = TaskMonitor2.monitorExit md.state := by
  rw [Module.monitorExit]
  dsimp only [Module.releaseAll]
  rw [exitMonitors_state]
  split_ifs <;> rfl

theorem books_acquired (md : Module) : md.books.acquired = md.ledger.acquired := rfl

theorem books_released_of_ne (md : Module) {r : Resource} (h : r ≠ .monitor) :
    md.books.released r = md.ledger.released r :=
  Function.update_of_ne h _ _

theorem books_released (md : Module) (r : Resource) :
    md.books.released r
      = md.ledger.released r + if r = .monitor then md.state.monitors.freed.length else 0 := by
  by_cases h : r = .monitor
  · rw [h, if_pos rfl, Module.books]
    dsimp only
    rw [Function.update_self]
  · rw [books_released_of_ne md h, if_neg h, Nat.add_zero]

/-! ### Complete calls -/

theorem Effect.monitors_eq {s s' : State} {call : Call} (h : Effect s call s') :
    s'.tasks = s.tasks ∧ s'.monitors = s.monitors := by
  cases h with
  | scanned hmask => exact ⟨droppedAll_tasks s s.listed, droppedAll_monitors s s.listed⟩
  | _ => exact ⟨rfl, rfl⟩

theorem Accounted.act_monitors {s : State} (h : Accounted s) {deed : Deed}
    (hallowed : deed.Allowed s) :
    (act s deed).tasks = s.tasks ∧ (act s deed).monitors = s.monitors := by
  cases deed with
  | call call => exact (h.effect hallowed).monitors_eq
  | otherStore offset => exact ⟨rfl, rfl⟩

/-- The deeds between loading and unloading neither add nor release a monitor. -/
theorem final_monitors {s : State} (h : Accounted s) {deeds : List Deed}
    (hdeeds : StepsMeet act Deed.Allowed s deeds) :
    Accounted (final act s deeds) ∧ (final act s deeds).tasks = s.tasks
      ∧ (final act s deeds).monitors = s.monitors := by
  have hkeep : ∀ s' deed, (Accounted s' ∧ s'.tasks = s.tasks ∧ s'.monitors = s.monitors) →
      deed.Allowed s' → (Accounted (act s' deed) ∧ (act s' deed).tasks = s.tasks
        ∧ (act s' deed).monitors = s.monitors) := by
    rintro s' deed ⟨haccounted, htasks, hmonitors⟩ hallowed
    obtain ⟨htasks', hmonitors'⟩ := haccounted.act_monitors hallowed
    exact ⟨haccounted.acted hallowed, htasks'.trans htasks, hmonitors'.trans hmonitors⟩
  exact invariant hkeep ⟨h, rfl, rfl⟩ hdeeds _ final_mem_states

/-! ### Loading -/

section Init

variable {md : Module} (hrest : md.AtRest) {env : InitEnv}

include hrest

/-- The list of monitors is empty already. -/
theorem Module.AtRest.listed_eq :
    { md.state with tasks := [], headTaken := env.headFreed }
      = { md.state with headTaken := env.headFreed } := by
  have htasks := hrest.state.tasks
  rw [← htasks]

theorem Module.AtRest.unloaded : Unloaded { md.state with headTaken := env.headFreed } :=
  { hrest.state with
    tasks := hrest.state.tasks
    strays := hrest.state.strays }

/-- No process has the pid: the monitor is freed again, and `all_tasks` stays. -/
theorem monitorInit_none (hpid : env.pid = none) :
    ∃ md₀, monitorInit md env = (md₀, some 1)
      ∧ md₀.ledger = (({} : Ledger Resource).acquireAll [.allTasks, .monitor]).releaseAll
          [.monitor] := by
  have hledger : md.ledger = {} := by rw [hrest.eq]
  refine ⟨({ md with
    state := { md.state with headTaken := env.headFreed }
    ledger := md.ledger.acquireAll [.allTasks, .monitor] }).releaseAll [.monitor], ?_, ?_⟩
  · rw [monitorInit]
    simp only [Module.tmAllocator, Module.acquireAll, hrest.listed_eq, TaskMonitor2.tmAllocator, hpid]
    rfl
  · rw [Module.releaseAll, hledger]

/-- What the module is before `kthread_run`, and where the checks after it lead. -/
theorem monitorInit_some (hallowed : env.Allowed md.state) {pid : Int32} (hpid : env.pid = some pid) :
    ∃ md₁ : Module,
      md₁.state = State.monitored { md.state with headTaken := env.headFreed } env.kmalloc pid
      ∧ md₁.threads = {}
      ∧ md₁.ledger = ({} : Ledger Resource).acquireAll [.allTasks, .monitor, .pid, .cache, .mempool]
      ∧ monitorInit md env =
        if isErr env.thread then (md₁.kthreadRun env.thread, some (ptrErr env.thread))
        else if env.sysfsCreateFile ≠ 0 then
          (((md₁.kthreadRun env.thread).acquireAll [.debugfs, .kobject]).releaseAll [.kobject], some 0)
        else ({ (md₁.kthreadRun env.thread).acquireAll [.debugfs, .kobject] with
          run := true }.acquireAll [.shrinker], some 0) := by
  have hnull : env.kmalloc ≠ null := Nat.pos_iff_ne_zero.mp hallowed.1.1
  have hunloaded := @Module.AtRest.unloaded md hrest env
  have halloc := hunloaded.fresh.accounted.toAllocated.tmAllocator_eq hnull pid
  set md₁ : Module :=
    { md with
      state := State.monitored { md.state with headTaken := env.headFreed } env.kmalloc pid
      ledger := md.ledger.acquireAll [.allTasks, .monitor, .pid, .cache, .mempool] } with hmd₁
  refine ⟨md₁, rfl, ?_, ?_, ?_⟩
  · rw [hmd₁, hrest.eq]
  · rw [hmd₁, hrest.eq]
  · rw [monitorInit]
    simp only [Module.tmAllocator, Module.acquireAll, hrest.listed_eq, hpid, halloc]
    rfl

end Init

/-! ### The balance -/

theorem not_balanced {md md₀ : Module} {env : InitEnv} {deeds : List Deed} {ret : Int}
    (r r' : Resource) (hinit : monitorInit md env = (md₀, some ret))
    (hfail : ret ≠ 0 → ¬ md₀.books.Settled r) (hok : ret = 0 → ¬ md₀.books.Holds r') :
    ¬ Balanced md env deeds := by
  rintro ⟨md₁, ret₁, hinit₁, hbalanced⟩
  rw [hinit, Prod.mk.injEq, Option.some.injEq] at hinit₁
  obtain ⟨rfl, rfl⟩ := hinit₁
  rcases hbalanced with ⟨hret, hsettled⟩ | ⟨hret, hholds, -⟩
  · exact hfail hret (hsettled r)
  · exact hok hret (hholds r')

/-- What a module that loaded holds. -/
def initAcquires : List Resource :=
  [.allTasks, .monitor, .pid, .cache, .mempool, .thread, .debugfs, .kobject, .shrinker]

theorem loaded_holds {md : Module} (hfreed : md.state.monitors.freed = [])
    (hledger : md.ledger = ({} : Ledger Resource).acquireAll initAcquires) (r : Resource) :
    md.books.Holds r := by
  constructor
  · rw [books_acquired, hledger, acquired_acquireAll]
    cases r <;> rfl
  · rw [books_released, hfreed, hledger, released_acquireAll]
    cases r <;> rfl

/-- Unloading a module that holds everything, after any calls. -/
theorem released_once {md : Module} (hstate : Accounted md.state)
    (htasks : md.state.tasks.length = 1) (hfreed : md.state.monitors.freed = [])
    (hledger : md.ledger = ({} : Ledger Resource).acquireAll initAcquires)
    (hthread : md.monitorThread ≠ null) {deeds : List Deed}
    (hdeeds : StepsMeet act Deed.Allowed md.state deeds) (r : Resource) :
    (md.after deeds).monitorExit.books.acquired r = 1
      ∧ (md.after deeds).monitorExit.books.released r = 1 := by
  obtain ⟨haccounted, htasks', hmonitors⟩ := final_monitors hstate hdeeds
  have hexit := (haccounted.exitMonitors_spec (List.reverse_reverse _).symm).2.2.1
  rw [htasks', List.reverse_reverse, hmonitors, hfreed, List.append_nil] at hexit
  have hfreed' : (md.after deeds).monitorExit.state.monitors.freed.length = 1 := by
    rw [monitorExit_state, TaskMonitor2.monitorExit, Module.after, htasks', hexit, htasks]
  have hledger' : (md.after deeds).monitorExit.ledger
      = (({} : Ledger Resource).acquireAll initAcquires).releaseAll (exitReleases 1) := by
    rw [monitorExit_ledger (md.after deeds) hthread]
    simp only [Module.after, htasks', htasks, hledger]
  constructor
  · rw [books_acquired, hledger', acquired_releaseAll, acquired_acquireAll]
    cases r <;> rfl
  · rw [books_released, hfreed', hledger', released_releaseAll, released_acquireAll]
    cases r <;> rfl

theorem not_settled_allTasks {md : Module} (hacquired : md.ledger.acquired .allTasks = 1)
    (hreleased : md.ledger.released .allTasks = 0) : ¬ md.books.Settled .allTasks := by
  rintro ⟨hsettled, -⟩
  rw [books_acquired, books_released_of_ne md (by decide), hacquired, hreleased] at hsettled
  exact absurd hsettled (by decide)

section Init

variable {md : Module} (hrest : md.AtRest) {env : InitEnv} {deeds : List Deed}

include hrest

theorem not_balanced_of_pid_none (hpid : env.pid = none) : ¬ Balanced md env deeds := by
  obtain ⟨md₀, hinit, hledger⟩ := monitorInit_none hrest hpid
  apply not_balanced .allTasks .allTasks hinit
  · intro _
    apply not_settled_allTasks <;> rw [hledger] <;> rfl
  · exact fun hret => absurd hret (by decide)

variable (hallowed : env.Allowed md.state) (hpid : env.pid.isSome = true)

include hallowed hpid

theorem not_balanced_of_isErr (herr : isErr env.thread = true) : ¬ Balanced md env deeds := by
  obtain ⟨pid, hpid⟩ := Option.isSome_iff_exists.mp hpid
  obtain ⟨md₁, -, -, hledger, hinit⟩ := monitorInit_some hrest hallowed hpid
  have hrun : (md₁.kthreadRun env.thread).ledger = md₁.ledger := by
    rw [Module.kthreadRun, herr]
    rfl
  rw [herr, if_pos rfl] at hinit
  apply not_balanced .allTasks .allTasks hinit
  · intro _
    apply not_settled_allTasks <;> rw [hrun, hledger] <;> rfl
  · exact fun hret => absurd hret (ptrErr_ne_zero herr)

/-- `monitor_init` past the check of `kthread_run`. -/
theorem monitorInit_thread (herr : isErr env.thread = false) :
    ∃ md₂ : Module, Fresh md₂.state ∧ md₂.state.headTaken = env.headFreed
      ∧ md₂.state.tasks.length = 1 ∧ md₂.monitorThread = env.thread
      ∧ md₂.ledger = ({} : Ledger Resource).acquireAll
          [.allTasks, .monitor, .pid, .cache, .mempool, .thread]
      ∧ monitorInit md env =
        if env.sysfsCreateFile ≠ 0 then
          ((md₂.acquireAll [.debugfs, .kobject]).releaseAll [.kobject], some 0)
        else ({ md₂.acquireAll [.debugfs, .kobject] with run := true }.acquireAll [.shrinker],
          some 0) := by
  obtain ⟨pid, hpid⟩ := Option.isSome_iff_exists.mp hpid
  obtain ⟨md₁, hstate, -, hledger, hinit⟩ := monitorInit_some hrest hallowed hpid
  rw [herr, if_neg Bool.false_ne_true] at hinit
  have hunloaded := @Module.AtRest.unloaded md hrest env
  refine ⟨md₁.kthreadRun env.thread, ?_, ?_, ?_, rfl, ?_, hinit⟩
  · change Fresh md₁.state
    rw [hstate]
    exact hunloaded.fresh.monitored hallowed.1 pid
  · change md₁.state.headTaken = env.headFreed
    rw [hstate, State.monitored]
  · change md₁.state.tasks.length = 1
    rw [hstate, State.monitored, hrest.state.tasks]
    rfl
  · rw [Module.kthreadRun, herr, hledger]
    rfl

theorem not_balanced_of_sysfs (herr : isErr env.thread = false) (hsysfs : env.sysfsCreateFile ≠ 0) :
    ¬ Balanced md env deeds := by
  obtain ⟨md₂, -, -, -, -, hledger, hinit⟩ := monitorInit_thread hrest hallowed hpid herr
  rw [if_pos hsysfs] at hinit
  apply not_balanced .kobject .kobject hinit
  · exact fun hret => absurd rfl hret
  · rintro - ⟨-, hreleased⟩
    rw [books_released_of_ne _ (by decide)] at hreleased
    simp only [Module.releaseAll, Module.acquireAll, hledger] at hreleased
    exact absurd hreleased (by decide)

/-- All three checked calls succeed. -/
theorem balanced_iff_of_sysfs (herr : isErr env.thread = false) (hsysfs : env.sysfsCreateFile = 0)
    (hdeeds : StepsMeet act Deed.Allowed (monitorInit md env).1.state deeds) :
    Balanced md env deeds
      ↔ env.headFreed = false
        ∧ StepsMeet act (Deed.Spares State.Aligned) (monitorInit md env).1.state deeds
        ∧ ((monitorInit md env).1.after deeds).state.Aligned
          ((monitorInit md env).1.after deeds).state.tasks.reverse := by
  obtain ⟨md₂, hfresh, hhead, htasks, hthread, hledger, hinit⟩ :=
    monitorInit_thread hrest hallowed hpid herr
  rw [if_neg (not_not.mpr hsysfs)] at hinit
  set md₀ : Module :=
    { md₂.acquireAll [.debugfs, .kobject] with run := true }.acquireAll [.shrinker] with hmd₀
  have hledger₀ : md₀.ledger = ({} : Ledger Resource).acquireAll initAcquires := by
    simp only [hmd₀, Module.acquireAll, hledger]
    rfl
  have hthread₀ : md₀.monitorThread ≠ null := by
    change md₂.monitorThread ≠ null
    rw [hthread]
    exact hallowed.2
  change Fresh md₀.state at hfresh
  change md₀.state.headTaken = env.headFreed at hhead
  change md₀.state.tasks.length = 1 at htasks
  rw [hinit] at hdeeds ⊢
  have hintact : (md₀.after deeds).monitorExit.state.Intact
      ↔ env.headFreed = false ∧ StepsMeet act (Deed.Spares State.Aligned) md₀.state deeds
        ∧ (md₀.after deeds).state.Aligned (md₀.after deeds).state.tasks.reverse := by
    rw [monitorExit_state, ← hhead, ← hfresh.intact_iff]
    exact intact_endures.final_iff hfresh.accounted hdeeds
  rw [← hintact]
  constructor
  · rintro ⟨md₁, ret, hinit₁, hbalanced⟩
    rw [hinit, Prod.mk.injEq, Option.some.injEq] at hinit₁
    obtain ⟨rfl, rfl⟩ := hinit₁
    rcases hbalanced with ⟨hret, -⟩ | ⟨-, -, hreleases⟩
    · exact absurd rfl hret
    · exact hreleases.1
  · intro hright
    refine ⟨md₀, 0, hinit, Or.inr ⟨rfl, loaded_holds hfresh.monitors_freed hledger₀, hright, ?_⟩⟩
    exact released_once hfresh.accounted htasks hfresh.monitors_freed hledger₀ hthread₀ hdeeds

end Init

/-- **The books balance exactly when the three calls that `monitor_init` checks succeed** and the
lists stay as they should be: the head of the list is in nobody else's memory, and no release of
samples, by a scan or at the end, puts off a link that is still needed. -/
theorem balanced_iff {md : Module} (hrest : md.AtRest) {env : InitEnv}
    (hallowed : env.Allowed md.state) {deeds : List Deed}
    (hdeeds : StepsMeet act Deed.Allowed (monitorInit md env).1.state deeds) :
    Balanced md env deeds
      ↔ env.Succeeds ∧ env.headFreed = false
        ∧ StepsMeet act (Deed.Spares State.Aligned) (monitorInit md env).1.state deeds
        ∧ ((monitorInit md env).1.after deeds).state.Aligned
          ((monitorInit md env).1.after deeds).state.tasks.reverse := by
  constructor
  · intro hbalanced
    have hpid : env.pid.isSome = true := by
      by_contra hnone
      exact not_balanced_of_pid_none hrest (Option.not_isSome_iff_eq_none.mp hnone) hbalanced
    have herr : isErr env.thread = false := by
      by_contra herr
      exact not_balanced_of_isErr hrest hallowed hpid (Bool.eq_true_of_not_eq_false herr) hbalanced
    have hsysfs : env.sysfsCreateFile = 0 := by
      by_contra hsysfs
      exact not_balanced_of_sysfs hrest hallowed hpid herr hsysfs hbalanced
    exact ⟨⟨hpid, herr, hsysfs⟩,
      (balanced_iff_of_sysfs hrest hallowed hpid herr hsysfs hdeeds).mp hbalanced⟩
  · rintro ⟨⟨hpid, herr, hsysfs⟩, hspares⟩
    exact (balanced_iff_of_sysfs hrest hallowed hpid herr hsysfs hdeeds).mpr hspares

def Module.atRest : Module where
  state := State.unloaded

theorem atRest_atRest : Module.atRest.AtRest := ⟨rfl, unloaded_unloaded⟩

def initEnv : InitEnv where
  kmalloc := 0x1000
  pid := some 1
  thread := 0x3000
  sysfsCreateFile := 0

theorem balanced_initEnv : Balanced Module.atRest initEnv someDeeds :=
  (balanced_iff atRest_atRest (by decide) (by decide)).mpr ⟨by decide, rfl, by decide, by decide⟩

/-- No process has the pid; `kthread_run` returns `-ENOMEM`; `sysfs_create_file` returns
`-EEXIST`. -/
def failingEnvs : List InitEnv :=
  [{ initEnv with pid := none }, { initEnv with thread := 2 ^ 64 - 12 },
    { initEnv with sysfsCreateFile := -17 }]

/-- None of them balances, whatever is done before unloading; and with all calls successful, two
samples in neighbouring objects are enough. -/
theorem not_balanced_failingEnvs :
    Module.atRest.AtRest
      ∧ (∀ env ∈ failingEnvs,
          env.Allowed Module.atRest.state ∧ ∀ deeds, ¬ Balanced Module.atRest env deeds)
      ∧ initEnv.Allowed Module.atRest.state
      ∧ StepsMeet act Deed.Allowed (monitorInit Module.atRest initEnv).1.state adjacentDeeds
      ∧ ¬ Balanced Module.atRest initEnv adjacentDeeds := by
  refine ⟨atRest_atRest, ?_, by decide, by decide, ?_⟩
  · simp only [failingEnvs, List.forall_mem_cons]
    refine ⟨⟨by decide, fun deeds => ?_⟩, ⟨by decide, fun deeds => ?_⟩,
      ⟨by decide, fun deeds => ?_⟩, by simp⟩
    · apply not_balanced .allTasks .allTasks rfl
      · exact fun _ => not_settled_allTasks rfl rfl
      · exact fun hret => absurd hret (by decide)
    · apply not_balanced .allTasks .allTasks rfl
      · exact fun _ => not_settled_allTasks rfl rfl
      · exact fun hret => absurd hret (by decide)
    · apply not_balanced .kobject .kobject rfl
      · exact fun hret => absurd rfl hret
      · rintro - ⟨-, hreleased⟩
        exact absurd hreleased (by decide)
  · rintro ⟨md₀, ret, hinit, ⟨hret, -⟩ | ⟨-, -, hsound, -⟩⟩
    · have hzero : (monitorInit Module.atRest initEnv).2 = some 0 := rfl
      rw [hinit] at hzero
      exact hret (Option.some.inj hzero)
    · obtain rfl : (monitorInit Module.atRest initEnv).1 = md₀ := by rw [hinit]
      exact absurd hsound.wild (by decide)

end Pnl.TaskMonitor2
