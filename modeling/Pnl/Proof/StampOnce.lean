import Pnl.Lib.Runs
import Pnl.UpdateSb2

/-!
# One stamp for each superblock

`block_stamp` takes a date with a zero field for no date. The clock has seconds, so a superblock
keeps its first stamp unless that fell on a whole second; then the next pass gives it another one.
-/

namespace Pnl.UpdateSb2

open Runs

/-! ### Passes -/

def stamp (s : State) (pass : Pass) : State :=
  { s with superBlock :=
      Function.update s.superBlock pass.sb (blockStamp pass.now (s.superBlock pass.sb)).1 }

/-- The superblocks of the calls of `block_stamp`, each with what the call leaves of it and
prints. -/
def trace (s : State) : List Pass → List (Addr × SuperBlock × List UInt8)
  | [] => []
  | pass :: passes =>
      (pass.sb, blockStamp pass.now (s.superBlock pass.sb)) :: trace (stamp s pass) passes

theorem iterateSupersType_eq (s : State) (passes : List Pass) :
    iterateSupersType s passes = (final stamp s passes, (trace s passes).map fun call => call.2.2) := by
  induction passes generalizing s with
  | nil => rfl
  | cons pass passes ih =>
      rw [iterateSupersType]
      dsimp only
      rw [← stamp, ih]
      rfl

theorem trace_append (s : State) (ps qs : List Pass) :
    trace s (ps ++ qs) = trace s ps ++ trace (final stamp s ps) qs := by
  induction ps generalizing s with
  | nil => rfl
  | cons p ps ih =>
      rw [List.cons_append, trace, ih, trace, List.cons_append]
      rfl

/-! ### Loads -/

/-- The calls of `block_stamp` over some loads. -/
def passes (types : FsTypes) (loads : List Load) : List Pass :=
  loads.flatMap fun load => (load.passes types).getD []

def loadsTrace (types : FsTypes) (s : State) : List Load → List (Addr × SuperBlock × List UInt8)
  | [] => []
  | load :: loads =>
      trace s ((load.passes types).getD []) ++ loadsTrace types (helloInit types s load).1 loads

/-- Two calls for one superblock leave it with the same date and print the same. -/
def Permanent (types : FsTypes) (s : State) (loads : List Load) : Prop :=
  (loadsTrace types s loads).Pairwise fun earlier later =>
    later.1 = earlier.1 → later.2 = earlier.2

theorem helloInit_eq (types : FsTypes) (s : State) (load : Load) :
    helloInit types s load = (final stamp s ((load.passes types).getD []),
      (load.passes types).map fun passes => (trace s passes).map fun call => call.2.2) := by
  rw [helloInit]
  cases load.passes types with
  | none => rfl
  | some passes => simp [iterateSupersType_eq]

theorem loadsTrace_eq (types : FsTypes) (s : State) (loads : List Load) :
    loadsTrace types s loads = trace s (passes types loads) := by
  induction loads generalizing s with
  | nil => rfl
  | cons load loads ih =>
      have hpasses : passes types (load :: loads)
          = (load.passes types).getD [] ++ passes types loads := List.flatMap_cons
      rw [loadsTrace, ih, helloInit_eq, hpasses, trace_append]

/-! ### One pass -/

def Timespec.zero : Timespec := ⟨0, 0⟩

/-- Either the date is still zero, or its seconds are not. -/
def State.Dated (s : State) : Prop :=
  ∀ a, (s.superBlock a).date = .zero ∨ (s.superBlock a).date.tvSec ≠ 0

def State.Stamped (s : State) (a : Addr) : Prop := (s.superBlock a).date ≠ .zero

/-- A stamp on a whole second is met again at that very time only. -/
def Pass.Keeps (s : State) (pass : Pass) : Prop :=
  (s.superBlock pass.sb).date.tvNsec = 0 → (s.superBlock pass.sb).date.tvSec ≠ 0 →
    pass.now = (s.superBlock pass.sb).date

instance Pass.decidableKeeps (s : State) (pass : Pass) : Decidable (pass.Keeps s) :=
  inferInstanceAs (Decidable (_ → _ → _))

/-- What `block_stamp` leaves and prints when it does not change the superblock. -/
def State.shown (s : State) (a : Addr) : SuperBlock × List UInt8 :=
  (s.superBlock a, myPrintBlock (s.superBlock a))

theorem superBlock_stamp_self (s : State) (pass : Pass) :
    (stamp s pass).superBlock pass.sb = (blockStamp pass.now (s.superBlock pass.sb)).1 :=
  Function.update_self _ _ _

theorem superBlock_stamp_of_ne (s : State) {pass : Pass} {a : Addr} (h : a ≠ pass.sb) :
    (stamp s pass).superBlock a = s.superBlock a :=
  Function.update_of_ne h _ _

theorem shown_stamp_self (s : State) (pass : Pass) :
    (stamp s pass).shown pass.sb = blockStamp pass.now (s.superBlock pass.sb) := by
  rw [State.shown, superBlock_stamp_self]
  rfl

theorem shown_stamp_of_ne (s : State) {pass : Pass} {a : Addr} (h : a ≠ pass.sb) :
    (stamp s pass).shown a = s.shown a := by
  rw [State.shown, superBlock_stamp_of_ne s h, State.shown]

/-- Whether it stamps or not, `block_stamp` leaves a date with seconds. -/
theorem tvSec_blockStamp {now : Timespec} (hnow : now.tvSec ≠ 0) (sb : SuperBlock) :
    (blockStamp now sb).1.date.tvSec ≠ 0 := by
  rw [blockStamp]
  dsimp only
  split_ifs with hset
  · exact hnow
  · exact fun hsec => hset (Or.inr hsec)

theorem dated_stamp {s : State} (h : s.Dated) {pass : Pass} (hnow : pass.now.tvSec ≠ 0) :
    (stamp s pass).Dated := by
  intro a
  by_cases ha : a = pass.sb
  · rw [ha, superBlock_stamp_self]
    exact Or.inr (tvSec_blockStamp hnow _)
  · rw [superBlock_stamp_of_ne s ha]
    exact h a

theorem stamped_stamp_self (s : State) {pass : Pass} (hnow : pass.now.tvSec ≠ 0) :
    (stamp s pass).Stamped pass.sb := by
  intro hzero
  rw [superBlock_stamp_self] at hzero
  have hsec := tvSec_blockStamp hnow (s.superBlock pass.sb)
  rw [hzero] at hsec
  exact hsec rfl

/-- A pass leaves a stamped superblock as it is, and prints it so, exactly when it keeps it. -/
theorem keeps_iff {s : State} (h : s.Dated) (pass : Pass) :
    pass.Keeps s ↔ (s.Stamped pass.sb →
      blockStamp pass.now (s.superBlock pass.sb) = s.shown pass.sb) := by
  rw [Pass.Keeps, State.Stamped, State.shown, blockStamp]
  generalize hsb : s.superBlock pass.sb = sb
  obtain hzero | hsec : sb.date = .zero ∨ sb.date.tvSec ≠ 0 := hsb ▸ h pass.sb
  · refine iff_of_true (fun _ hsec => ?_) fun hstamped => absurd hzero hstamped
    rw [hzero] at hsec
    exact absurd rfl hsec
  · have hstamped : sb.date ≠ .zero := by
      intro hzero
      rw [hzero] at hsec
      exact hsec rfl
    rw [imp_iff_right hstamped]
    by_cases hnsec : sb.date.tvNsec = 0
    · rw [imp_iff_right hnsec, imp_iff_right hsec, if_pos (Or.inl hnsec)]
      constructor
      · intro hnow
        rw [hnow]
      · intro hsame
        exact congrArg (fun call => call.1.date) hsame
    · rw [if_neg (not_or.mpr ⟨hnsec, hsec⟩)]
      exact iff_of_true (fun hzero => absurd hzero hnsec) rfl

/-! ### Runs of passes -/

/-- Superblocks that are stamped already are shown as they are from here on, and the others as the
first pass leaves them. -/
def Repeats (s : State) (passes : List Pass) : Prop :=
  (trace s passes).Pairwise (fun earlier later => later.1 = earlier.1 → later.2 = earlier.2)
    ∧ ∀ call ∈ trace s passes, s.Stamped call.1 → call.2 = s.shown call.1

theorem stamped_stamp_iff {s : State} {pass : Pass} (hnow : pass.now.tvSec ≠ 0) (a : Addr) :
    (stamp s pass).Stamped a ↔ a = pass.sb ∨ s.Stamped a := by
  by_cases ha : a = pass.sb
  · rw [ha]
    exact iff_of_true (stamped_stamp_self s hnow) (Or.inl rfl)
  · rw [or_iff_right ha, State.Stamped, superBlock_stamp_of_ne s ha, State.Stamped]

theorem repeats_cons_iff {s : State} (h : s.Dated) {pass : Pass} (hnow : pass.now.tvSec ≠ 0)
    (passes : List Pass) :
    Repeats s (pass :: passes) ↔ pass.Keeps s ∧ Repeats (stamp s pass) passes := by
  rw [keeps_iff h, Repeats, trace, List.pairwise_cons, List.forall_mem_cons, Repeats]
  constructor
  · rintro ⟨⟨hfirst, hpairwise⟩, hkeep, hold⟩
    refine ⟨hkeep, hpairwise, fun call hcall hstamped => ?_⟩
    by_cases hself : call.1 = pass.sb
    · rw [hself, shown_stamp_self]
      exact hfirst call hcall hself
    · rw [shown_stamp_of_ne s hself]
      exact hold call hcall (((stamped_stamp_iff hnow _).mp hstamped).resolve_left hself)
  · rintro ⟨hkeep, hpairwise, hold⟩
    have hfirst : ∀ call ∈ trace (stamp s pass) passes, call.1 = pass.sb →
        call.2 = blockStamp pass.now (s.superBlock pass.sb) := by
      intro call hcall hself
      rw [hold call hcall ((stamped_stamp_iff hnow _).mpr (Or.inl hself)), hself, shown_stamp_self]
    refine ⟨⟨hfirst, hpairwise⟩, hkeep, fun call hcall hstamped => ?_⟩
    by_cases hself : call.1 = pass.sb
    · rw [hfirst call hcall hself, hself]
      exact hkeep (hself ▸ hstamped)
    · rw [hold call hcall ((stamped_stamp_iff hnow _).mpr (Or.inr hstamped)),
        shown_stamp_of_ne s hself]

theorem repeats_iff {s : State} (h : s.Dated) {passes : List Pass}
    (hnow : ∀ pass ∈ passes, pass.now.tvSec ≠ 0) :
    Repeats s passes ↔ StepsMeet stamp (fun s pass => pass.Keeps s) s passes := by
  induction passes generalizing s with
  | nil => simp [Repeats, trace, StepsMeet]
  | cons pass passes ih =>
      have hfirst := hnow pass List.mem_cons_self
      have htail := ih (dated_stamp h hfirst) fun p hp => hnow p (List.mem_cons_of_mem pass hp)
      rw [repeats_cons_iff h hfirst, htail, StepsMeet]

/-! ### Runs of loads -/

theorem now_of_mem_passes {types : FsTypes} {loads : List Load}
    (hclock : ∀ load ∈ loads, ∀ k, (load.clock k).tvSec ≠ 0) {pass : Pass}
    (hpass : pass ∈ passes types loads) : pass.now.tvSec ≠ 0 := by
  obtain ⟨load, hload, hpass⟩ := List.mem_flatMap.mp hpass
  rw [Load.passes] at hpass
  cases htype : types load.myType with
  | none => simp [htype] at hpass
  | some sbs =>
      rw [htype, Option.map_some, Option.getD_some] at hpass
      obtain ⟨k, hk, rfl⟩ := List.mem_mapIdx.mp hpass
      exact hclock load hload k

/-- **The first stamp is permanent exactly when no pass meets a stamp on a whole second**, unless
the clock says that second again. -/
theorem permanent_iff {types : FsTypes} {s : State} (hzero : ∀ a, (s.superBlock a).date = .zero)
    {loads : List Load} (hclock : ∀ load ∈ loads, ∀ k, (load.clock k).tvSec ≠ 0) :
    Permanent types s loads
      ↔ StepsMeet stamp (fun s pass => pass.Keeps s) s (passes types loads) := by
  have hdated : s.Dated := fun a => Or.inl (hzero a)
  rw [← repeats_iff hdated fun pass hpass => now_of_mem_passes hclock hpass, Permanent,
    loadsTrace_eq, Repeats]
  exact (and_iff_left fun call _ hstamped => absurd (hzero call.1) hstamped).symm

def proc : List UInt8 := Bytes.ascii ['p', 'r', 'o', 'c']

def procOnly : FsTypes := fun name => if name = proc then some [0x1000] else none

def unstamped : State where
  superBlock := fun _ => { sUuid := fun _ => 0, date := .zero, typeName := proc }

def loadAt (tvSec tvNsec : Int64) : Load where
  myType := proc
  clock := fun _ => ⟨tvSec, tvNsec⟩

theorem permanent_twoLoads :
    Permanent procOnly unstamped [loadAt 1520517382 181856446, loadAt 1520517443 0] :=
  (permanent_iff (fun _ => rfl) (by simp [loadAt])).mpr (by decide)

/-- A superblock stamped on a whole second gets another stamp a minute later. -/
theorem not_permanent_wholeSecond :
    (∀ a, (unstamped.superBlock a).date = .zero)
      ∧ ¬ Permanent procOnly unstamped [loadAt 1520517382 0, loadAt 1520517442 7] := by
  refine ⟨fun _ => rfl, fun hpermanent => ?_⟩
  have hsame := (List.pairwise_cons.mp hpermanent).1 _ List.mem_cons_self rfl
  exact absurd (congrArg (fun call => call.1.date) hsame) (by decide)

end Pnl.UpdateSb2
