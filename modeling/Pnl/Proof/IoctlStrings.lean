import Pnl.Proof.IoctlThread

/-!
# The bytes behind string and info

`string` and `info` point to two literals of five bytes each. `WHO` copies eight bytes over the
first, whatever the name, and `GET_SAMPLE` prints at least thirteen over the second. So a name comes
back by `HELLO` when the three bytes too many fall into the other literal, when nothing is printed in
between, and when the name ends within the eight bytes or goes on as the memory behind them does.
-/

namespace Pnl.TaskMonitorIoctl

open Bytes Kthreads Runs TaskMonitor

/-- How many stores left the storage of the two literals. -/
def Driver.strays (d : Driver) : Nat := d.faults.count .strayStore

def Ioctl.IsWho : Ioctl → Prop
  | .who _ => True
  | _ => False

/-- A `GET_SAMPLE` does not get as far as printing. -/
def Ioctl.PrintsNothing (d : Driver) : Ioctl → Prop
  | .getSample _ _ _ => d.tm = null
  | _ => True

instance : (call : Ioctl) → Decidable call.IsWho
  | .who _ => inferInstanceAs (Decidable True)
  | .wrValue _ | .rdValue _ | .hello _ | .getSample _ _ _ | .getSampleStruct _ _ | .taskmonStop
  | .taskmonStart _ | .taskmonSetPid _ _ _ _ | .other => inferInstanceAs (Decidable False)

instance (d : Driver) : (call : Ioctl) → Decidable (call.PrintsNothing d)
  | .getSample _ _ _ => inferInstanceAs (Decidable (_ = _))
  | .wrValue _ | .rdValue _ | .hello _ | .who _ | .getSampleStruct _ _ | .taskmonStop
  | .taskmonStart _ | .taskmonSetPid _ _ _ _ | .other => inferInstanceAs (Decidable True)

/-- `WHO` with a name that ends in a zero, some other ioctls, and `HELLO` with `room` bytes to write
to: the name comes back, and until then every store is inside the two literals. -/
structure NameKept (d : Driver) (name rest : List UInt8) (calls : List Ioctl) (room : Nat) :
    Prop where
  delivered : (etxIoctl (final step (step d (.who (name ++ 0 :: rest))) calls) (.hello room)).2
    = some (0, name)
  stores : (final step (step d (.who (name ++ 0 :: rest))) calls).strays = d.strays

/-! ### What leaves the strings alone -/

/-- `d'` differs from `d` in nothing that concerns the strings. -/
structure SameStrings (d d' : Driver) : Prop where
  mem : d'.mem = d.mem
  string : d'.string = d.string
  info : d'.info = d.info
  strays : d'.strays = d.strays

/-- The strings are where they were, no memory is lost, and stray stores are not forgotten. -/
structure Grows (d d' : Driver) : Prop where
  string : d'.string = d.string
  info : d'.info = d.info
  mem : d.mem.length ≤ d'.mem.length
  strays : d.strays ≤ d'.strays

theorem SameStrings.refl (d : Driver) : SameStrings d d := ⟨rfl, rfl, rfl, rfl⟩

theorem SameStrings.trans {d d' d'' : Driver} (h : SameStrings d d') (h' : SameStrings d' d'') :
    SameStrings d d'' :=
  ⟨h'.mem.trans h.mem, h'.string.trans h.string, h'.info.trans h.info, h'.strays.trans h.strays⟩

theorem SameStrings.grows {d d' : Driver} (h : SameStrings d d') : Grows d d' :=
  ⟨h.string, h.info, (congrArg List.length h.mem).ge, h.strays.ge⟩

theorem Grows.trans {d d' d'' : Driver} (h : Grows d d') (h' : Grows d' d'') : Grows d d'' :=
  ⟨h'.string.trans h.string, h'.info.trans h.info, h.mem.trans h'.mem, h.strays.trans h'.strays⟩

theorem sameStrings_fault (d : Driver) {f : Fault} (hf : f ≠ .strayStore) :
    SameStrings d (d.fault f) :=
  ⟨rfl, rfl, rfl, List.count_cons_of_ne hf⟩

theorem sameStrings_readTm (d : Driver) : SameStrings d d.readTm := by
  unfold Driver.readTm
  split_ifs
  · exact SameStrings.refl d
  · exact sameStrings_fault d (by decide)

theorem sameStrings_putPid (d : Driver) : SameStrings d d.putPid := by
  have hread := sameStrings_readTm d
  unfold Driver.putPid
  dsimp only
  split_ifs
  · exact hread.trans (sameStrings_fault _ (by decide))
  · exact hread.trans ⟨rfl, rfl, rfl, rfl⟩

theorem sameStrings_kfree (d : Driver) : SameStrings d d.kfree := by
  unfold Driver.kfree
  split_ifs
  · exact ⟨rfl, rfl, rfl, rfl⟩
  · exact sameStrings_fault d (by decide)

theorem sameStrings_kthreadStop (d : Driver) : SameStrings d d.kthreadStop := by
  unfold Driver.kthreadStop
  split_ifs
  · exact ⟨rfl, rfl, rfl, rfl⟩
  · exact sameStrings_fault d (by decide)

theorem sameStrings_monitorPid (d : Driver) (pid : Option Pid) (kmalloc : Addr) :
    SameStrings d (monitorPid d pid kmalloc).1 := by
  cases pid with
  | none => exact SameStrings.refl d
  | some p =>
      simp only [monitorPid]
      split_ifs
      · refine ⟨rfl, rfl, rfl, ?_⟩
        have hne : Fault.nullDeref ≠ .strayStore := by decide
        exact List.count_cons_of_ne hne
      · exact ⟨rfl, rfl, rfl, rfl⟩

theorem sameStrings_teardown (d : Driver) (arg : List UInt8) :
    SameStrings d (d.teardown arg) := by
  have hfreed : SameStrings d d.kthreadStop.putPid.kfree :=
    (sameStrings_kthreadStop d).trans ((sameStrings_putPid _).trans (sameStrings_kfree _))
  unfold Driver.teardown
  generalize d.kthreadStop.putPid.kfree = d' at hfreed ⊢
  exact ⟨hfreed.mem, hfreed.string, hfreed.info, hfreed.strays⟩

theorem tm_kthreadStop (d : Driver) : d.kthreadStop.tm = d.tm := by
  unfold Driver.kthreadStop
  split_ifs <;> rfl

theorem sameStrings_setPid (d : Driver) (arg : List UInt8) (pid : Option Pid)
    (kmalloc thread : Addr) : SameStrings d (step d (.taskmonSetPid arg pid kmalloc thread)) := by
  have htear := sameStrings_teardown d arg
  by_cases htm : d.tm = null
  · have hnull : d.kthreadStop.tm = null := (tm_kthreadStop d).trans htm
    have hfault := sameStrings_fault d.kthreadStop (f := .nullDeref) (by decide)
    simp only [step, etxIoctl, if_pos hnull]
    exact (sameStrings_kthreadStop d).trans hfault
  · cases pid with
    | none =>
        rw [step, setPid_none htm]
        dsimp only
        exact htear.trans ((sameStrings_putPid _).trans (sameStrings_kfree _))
    | some p =>
        have hpid := htear.trans (sameStrings_monitorPid _ (some p) kmalloc)
        rw [step, setPid_some htm]
        split_ifs
        · exact hpid
        · dsimp only
          generalize (monitorPid (d.teardown arg) (some p) kmalloc).1 = d' at hpid ⊢
          exact ⟨hpid.mem, hpid.string, hpid.info, hpid.strays⟩

theorem sameStrings_step (d : Driver) {call : Ioctl} (hwho : ¬ call.IsWho)
    (hprints : call.PrintsNothing d) : SameStrings d (step d call) := by
  cases call with
  | wrValue arg => exact ⟨rfl, rfl, rfl, rfl⟩
  | rdValue room => exact SameStrings.refl d
  | hello room => exact SameStrings.refl d
  | who arg => exact absurd trivial hwho
  | getSample task stack room =>
      have htm : d.tm = null := hprints
      simp only [step, etxIoctl, if_pos htm]
      exact sameStrings_fault d (by decide)
  | getSampleStruct task room =>
      unfold step etxIoctl
      dsimp only
      split_ifs
      · exact sameStrings_fault d (by decide)
      · exact (sameStrings_readTm d).trans ⟨rfl, rfl, rfl, rfl⟩
  | taskmonStop =>
      rw [step_taskmonStop]
      split_ifs
      · exact (sameStrings_kthreadStop d).trans ⟨rfl, rfl, rfl, rfl⟩
      · exact SameStrings.refl d
  | taskmonStart thread =>
      rw [step_taskmonStart]
      split_ifs
      · exact SameStrings.refl d
      · exact ⟨rfl, rfl, rfl, rfl⟩
  | taskmonSetPid arg pid kmalloc thread => exact sameStrings_setPid d arg pid kmalloc thread
  | other => exact SameStrings.refl d

/-! ### Stores -/

section Store

variable (d : Driver) (off : Nat) (bytes : List UInt8)

theorem mem_store :
    (d.store off bytes).mem = d.mem.take off ++ bytes ++ d.mem.drop (off + bytes.length) := by
  unfold Driver.store
  rfl

/-- Every byte of a store is inside one of the literals. -/
def Driver.Within : Prop := ∀ i < bytes.length, d.owns (off + i) = true

theorem strays_store : (d.store off bytes).strays
    = if (List.range bytes.length).all fun i => d.owns (off + i) then d.strays else d.strays + 1 := by
  unfold Driver.store
  dsimp only
  split_ifs
  · rfl
  · exact List.count_cons_self

theorem strays_store_eq_iff : (d.store off bytes).strays = d.strays ↔ d.Within off bytes := by
  have hall : ((List.range bytes.length).all fun i => d.owns (off + i)) = true
      ↔ d.Within off bytes := by
    rw [List.all_eq_true]
    exact forall_congr' fun i => imp_congr_left List.mem_range
  rw [strays_store, ← hall]
  split_ifs with h
  · exact iff_of_true rfl h
  · exact iff_of_false (Nat.succ_ne_self _) h

theorem grows_store : Grows d (d.store off bytes) := by
  refine ⟨?_, ?_, ?_, ?_⟩
  · unfold Driver.store
    dsimp only
    split_ifs <;> rfl
  · unfold Driver.store
    dsimp only
    split_ifs <;> rfl
  · rw [mem_store, List.length_append, List.length_append, List.length_take, List.length_drop]
    omega
  · rw [strays_store]
    split_ifs <;> omega

theorem cstring_store (hoff : off ≤ d.mem.length) : (d.store off bytes).cstring off
    = (bytes ++ d.mem.drop (off + bytes.length)).takeWhile (· ≠ 0) := by
  have htake : (d.mem.take off).length = off := by
    rw [List.length_take]
    omega
  rw [Driver.cstring, mem_store, List.append_assoc, List.drop_left' htake]

end Store

theorem takeWhile_text {text : List UInt8} (hzero : 0 ∉ text) (rest : List UInt8) :
    (text ++ rest).takeWhile (· ≠ 0) = text ++ rest.takeWhile (· ≠ 0) := by
  apply List.takeWhile_append_of_pos
  intro b hb
  exact decide_eq_true fun hb0 => hzero (hb0 ▸ hb)

/-- A printed text with its zero is more than the two literals hold. -/
theorem length_sampleText_ge (ts : TaskSample) : 12 ≤ (sampleText ts).length := by
  have hpos : ∀ n, 0 < (decimal n).length := by
    intro n
    rw [decimal, ascii, List.length_map]
    exact Nat.length_toDigits_pos
  have hu := hpos ts.utime.toNat
  have hs := hpos ts.stime.toNat
  simp only [sampleText, ascii, List.length_append, List.length_map, List.length_cons,
    List.length_nil]
  omega

theorem not_within_snprintf (d : Driver) (ts : TaskSample) :
    ¬ d.Within d.info (snprintf 256 (sampleText ts)) := by
  intro h
  have hlength : 13 ≤ (snprintf 256 (sampleText ts)).length := by
    have := length_sampleText_ge ts
    rw [snprintf, List.length_append, List.length_take, List.length_singleton]
    omega
  -- of thirteen bytes in a row, one is behind both literals or between them
  have hmiss : ∃ i < 13, d.owns (d.info + i) = false := by
    by_cases hfar : d.string ≤ d.info + 5 ∧ d.info < d.string + 5
    · refine ⟨10, by omega, decide_eq_false (by omega)⟩
    · by_cases hnext : d.string ≤ d.info + 5 ∧ d.info + 5 < d.string + 5
      · exact ⟨10, by omega, decide_eq_false (by omega)⟩
      · exact ⟨5, by omega, decide_eq_false (by omega)⟩
  obtain ⟨i, hi, hout⟩ := hmiss
  exact Bool.false_ne_true (hout.symm.trans (h i (by omega)))

theorem step_getSample {d : Driver} (htm : d.tm ≠ null) (task : Option Task) (stack : TaskSample)
    (room : Nat) : step d (.getSample task stack room)
      = d.readTm.store d.readTm.info (snprintf 256 (sampleText (getSample task stack).1)) := by
  simp only [step, etxIoctl, if_neg htm]

theorem grows_step (d : Driver) (call : Ioctl) : Grows d (step d call) := by
  by_cases hwho : call.IsWho
  · cases call with
    | who arg => exact grows_store d d.string _
    | _ => exact absurd hwho not_false
  · by_cases hprints : call.PrintsNothing d
    · exact (sameStrings_step d hwho hprints).grows
    · cases call with
      | getSample task stack room =>
          rw [step_getSample hprints]
          exact (sameStrings_readTm d).grows.trans (grows_store _ _ _)
      | _ => exact absurd trivial hprints

theorem strays_step_lt {d : Driver} {call : Ioctl} (h : ¬ call.PrintsNothing d) :
    d.strays < (step d call).strays := by
  cases call with
  | getSample task stack room =>
      rw [step_getSample h]
      have hread := (sameStrings_readTm d).strays
      have hgrows := (grows_store d.readTm d.readTm.info
        (snprintf 256 (sampleText (getSample task stack).1))).strays
      have hne := (strays_store_eq_iff d.readTm d.readTm.info _).not.mpr
        (not_within_snprintf d.readTm (getSample task stack).1)
      omega
  | _ => exact absurd trivial h

theorem grows_final (d : Driver) (calls : List Ioctl) : Grows d (final step d calls) := by
  induction calls generalizing d with
  | nil => exact (SameStrings.refl d).grows
  | cons call calls ih => exact (grows_step d call).trans (ih (step d call))

theorem sameStrings_final {d : Driver} {calls : List Ioctl} (hwho : ∀ call ∈ calls, ¬ call.IsWho)
    (hprints : StepsMeet step (fun d call => call.PrintsNothing d) d calls) :
    SameStrings d (final step d calls) := by
  induction calls generalizing d with
  | nil => exact SameStrings.refl d
  | cons call calls ih =>
      have hstep := sameStrings_step d (hwho call List.mem_cons_self) hprints.1
      exact hstep.trans (ih (fun c hc => hwho c (List.mem_cons_of_mem call hc)) hprints.2)

theorem printsNothing_of_strays {d : Driver} {calls : List Ioctl}
    (h : (final step d calls).strays = d.strays) :
    StepsMeet step (fun d call => call.PrintsNothing d) d calls := by
  induction calls generalizing d with
  | nil => trivial
  | cons call calls ih =>
      have hstep := (grows_step d call).strays
      have hrest : (step d call).strays ≤ d.strays := h ▸ (grows_final (step d call) calls).strays
      refine ⟨?_, ih (h.trans (by omega))⟩
      by_contra hprints
      have hlt := strays_step_lt hprints
      omega

/-! ### Where the literals are -/

/-- Both literals are in memory, and they do not share just one or two bytes. -/
structure Driver.Placed (d : Driver) : Prop where
  string : d.string + 5 ≤ d.mem.length
  info : d.info + 5 ≤ d.mem.length
  apart : d.info ≠ d.string + 3 ∧ d.info ≠ d.string + 4

theorem add_le_of_slice {bytes text : List UInt8} {off len : Nat} (h : slice bytes off len = text)
    (htext : text.length = len) (hpos : 0 < len) : off + len ≤ bytes.length := by
  have hlength := congrArg List.length h
  rw [slice, List.length_take, List.length_drop] at hlength
  omega

theorem getElem?_of_slice {bytes text : List UInt8} {off len i : Nat}
    (h : slice bytes off len = text) (hi : i < len) : bytes[off + i]? = text[i]? := by
  rw [← h, slice, List.getElem?_take_of_lt hi, List.getElem?_drop]

theorem Loaded.placed {d : Driver} (h : d.Loaded) : d.Placed := by
  have hstring := h.string_toto
  have hinfo := h.info_toto
  refine ⟨add_le_of_slice hstring rfl (by decide), add_le_of_slice hinfo rfl (by decide),
    fun heq => ?_, fun heq => ?_⟩
  · -- the fourth byte of one would be the first of the other
    have hboth := getElem?_of_slice hstring (show 3 < 5 by omega)
    rw [← heq, ← Nat.add_zero d.info, getElem?_of_slice hinfo (show 0 < 5 by omega)] at hboth
    exact absurd hboth (by decide)
  · have hboth := getElem?_of_slice hstring (show 4 < 5 by omega)
    rw [← heq, ← Nat.add_zero d.info, getElem?_of_slice hinfo (show 0 < 5 by omega)] at hboth
    exact absurd hboth (by decide)

theorem Grows.placed {d d' : Driver} (h : Grows d d') (hd : d.Placed) : d'.Placed := by
  obtain ⟨hstring, hinfo, hapart⟩ := hd
  have hmem := h.mem
  refine ⟨?_, ?_, ?_⟩
  · rw [h.string]
    omega
  · rw [h.info]
    omega
  · rw [h.string, h.info]
    exact hapart

theorem placed_final {d d₀ : Driver} (hload : d.Loaded) {pid : Option Pid} {kmalloc thread : Addr}
    (hinit : monitorInit d pid kmalloc thread = (d₀, some 0)) (calls : List Ioctl) :
    (final step d₀ calls).Placed := by
  obtain ⟨p, -, -, -, hd₀⟩ := monitorInit_eq hinit
  have hgrows : Grows d d₀ := by
    rw [hd₀]
    exact ⟨rfl, rfl, Nat.le_refl _, Nat.le_refl _⟩
  exact (hgrows.trans (grows_final d₀ calls)).placed (Loaded.placed hload)

/-! ### `WHO` -/

/-- Eight bytes at `string` are inside the literals when the other literal comes right behind. -/
theorem within_string_iff {d : Driver} (h : d.Placed) {bytes : List UInt8}
    (hbytes : bytes.length = 8) : d.Within d.string bytes ↔ d.info = d.string + 5 := by
  obtain ⟨hthree, hfour⟩ := h.apart
  constructor
  · intro hwithin
    have h5 := of_decide_eq_true (hwithin 5 (by omega))
    have h7 := of_decide_eq_true (hwithin 7 (by omega))
    omega
  · intro hnext i hi
    exact decide_eq_true (by omega)

/-- What `WHO` copies of a name: all of it and a zero, or its first eight bytes. -/
theorem copyFromUser_name (name rest : List UInt8) :
    (copyFromUser (name ++ 0 :: rest) 8).1.length = 8
      ∧ (name.length ≤ 7 → ∃ more, (copyFromUser (name ++ 0 :: rest) 8).1 = name ++ 0 :: more)
      ∧ (7 < name.length → (copyFromUser (name ++ 0 :: rest) 8).1 = name.take 8) := by
  simp only [copyFromUser]
  refine ⟨?_, fun hshort => ?_, fun hlong => ?_⟩
  · simp only [List.length_append, List.length_take, List.length_replicate, List.length_cons]
    omega
  · have hroom : 8 - name.length = 8 - name.length - 1 + 1 := by omega
    rw [List.take_append, List.take_of_length_le (by omega), hroom, List.take_succ_cons,
      List.append_assoc, List.cons_append]
    exact ⟨_, rfl⟩
  · have hfull : 8 - (name ++ 0 :: rest).length = 0 := by
      rw [List.length_append]
      omega
    rw [hfull, List.replicate_zero, List.append_nil, List.take_append_of_le_length (by omega)]

section Who

variable {d : Driver} {name : List UInt8} (hzero : 0 ∉ name) (rest : List UInt8)

include hzero

/-- The string after `WHO`: the name, or its first eight bytes and what was stored behind them. -/
theorem cstring_who_iff (h : d.Placed) :
    (step d (.who (name ++ 0 :: rest))).cstring d.string = name
      ↔ name.length ≤ 7 ∨ d.cstring (d.string + 8) = name.drop 8 := by
  obtain ⟨hlength, hshort, hlong⟩ := copyFromUser_name name rest
  have hoff : d.string ≤ d.mem.length := by
    have := h.string
    omega
  have hstored : (step d (.who (name ++ 0 :: rest))).cstring d.string
      = ((copyFromUser (name ++ 0 :: rest) 8).1 ++ d.mem.drop (d.string + 8)).takeWhile (· ≠ 0) := by
    have hcut := cstring_store d d.string (copyFromUser (name ++ 0 :: rest) 8).1 hoff
    rw [hlength] at hcut
    exact hcut
  rw [hstored]
  rcases Nat.lt_or_ge 7 name.length with hgt | hle
  · have htake : 0 ∉ name.take 8 := fun hmem => hzero (List.mem_of_mem_take hmem)
    rw [hlong hgt, takeWhile_text htake, ← Driver.cstring, or_iff_right (by omega)]
    refine Iff.trans ?_ (List.append_right_inj (name.take 8))
    rw [List.take_append_drop]
  · obtain ⟨more, hmore⟩ := hshort hle
    rw [hmore, List.append_assoc, takeWhile_text hzero, List.cons_append,
      List.takeWhile_cons_of_neg (by simp), List.append_nil]
    exact iff_of_true rfl (Or.inl hle)

end Who

/-- `HELLO` gives all of the string when there is room for it. -/
theorem hello_eq_iff (d : Driver) (room : Nat) (name : List UInt8) :
    (etxIoctl d (.hello room)).2 = some (0, name)
      ↔ d.cstring d.string = name ∧ name.length ≤ room := by
  simp only [etxIoctl, copyToUser, Option.some.injEq, Prod.mk.injEq]
  constructor
  · rintro ⟨hres, hout⟩
    have hroom : (d.cstring d.string).length ≤ room := by omega
    rw [List.take_of_length_le hroom] at hout
    exact ⟨hout, hout ▸ hroom⟩
  · rintro ⟨rfl, hroom⟩
    exact ⟨by omega, List.take_of_length_le hroom⟩

/-! ### Runs -/

/-- **A name comes back, and nothing else is overwritten, exactly when the literals are next to each
other, no sample is printed in between, the name ends within eight bytes or continues as the memory
behind them does, and the caller has room for it.** -/
theorem nameKept_iff {d d₀ : Driver} (hload : d.Loaded) {pid : Option Pid} {kmalloc thread : Addr}
    (hinit : monitorInit d pid kmalloc thread = (d₀, some 0)) (before : List Ioctl)
    {name : List UInt8} (hzero : 0 ∉ name) (rest : List UInt8) {calls : List Ioctl}
    (hwho : ∀ call ∈ calls, ¬ call.IsWho) (room : Nat) :
    NameKept (final step d₀ before) name rest calls room ↔
      (final step d₀ before).info = (final step d₀ before).string + 5
        ∧ StepsMeet step (fun d call => call.PrintsNothing d)
          (step (final step d₀ before) (.who (name ++ 0 :: rest))) calls
        ∧ (name.length ≤ 7 ∨ (final step d₀ before).cstring ((final step d₀ before).string + 8)
          = name.drop 8)
        ∧ name.length ≤ room := by
  have hplaced := placed_final hload hinit before
  generalize final step d₀ before = s at hplaced ⊢
  set who := step s (.who (name ++ 0 :: rest)) with hwhoStep
  have hgrowsWho : Grows s who := grows_step s _
  have hgrows := grows_final who calls
  have hinside : who.strays = s.strays ↔ s.info = s.string + 5 :=
    (strays_store_eq_iff s s.string _).trans
      (within_string_iff hplaced (copyFromUser_name name rest).1)
  -- the string stays as `WHO` left it when no sample is printed
  have hkept : StepsMeet step (fun d call => call.PrintsNothing d) who calls →
      ((final step who calls).cstring (final step who calls).string = name
        ↔ name.length ≤ 7 ∨ s.cstring (s.string + 8) = name.drop 8) := by
    intro hprints
    have hsame := sameStrings_final hwho hprints
    rw [Driver.cstring, hsame.mem, hsame.string, hgrowsWho.string, ← Driver.cstring]
    exact cstring_who_iff hzero rest hplaced
  constructor
  · rintro ⟨hdelivered, hstores⟩
    have hfirst : s.strays ≤ who.strays := hgrowsWho.strays
    have hlater : who.strays ≤ (final step who calls).strays := hgrows.strays
    have hsame : (final step who calls).strays = s.strays := hstores
    have hprints := printsNothing_of_strays (hsame.trans (by omega))
    obtain ⟨hstring, hroom⟩ := (hello_eq_iff _ _ _).mp hdelivered
    exact ⟨hinside.mp (by omega), hprints, (hkept hprints).mp hstring, hroom⟩
  · rintro ⟨hnext, hprints, hname, hroom⟩
    refine ⟨(hello_eq_iff _ _ _).mpr ⟨(hkept hprints).mpr hname, hroom⟩, ?_⟩
    exact (sameStrings_final hwho hprints).strays.trans (hinside.mpr hnext)

def shortName : List UInt8 := ascii ['b', 'o', 'b']

theorem nameKept_shortName :
    NameKept startedModule shortName [] [.taskmonStop, .getSampleStruct none 16, .rdValue 4] 3 :=
  (nameKept_iff loaded_loadedModule monitorInit_loadedModule [] (by decide) [] (by decide) 3).mpr
    (by decide)

/-- Eight letters, and the caller has room for more. -/
def longName : List UInt8 := ascii ['b', 'e', 'n', 'j', 'a', 'm', 'i', 'n']

/-- With both literals in one place, and other bytes of the module behind them. -/
def mergedModule : Driver := { loadedModule with info := 0 }

def mergedStarted : Driver := (monitorInit mergedModule (some 1) 16 32).1

theorem not_nameKept_longName :
    loadedModule.Loaded ∧ monitorInit loadedModule (some 1) 16 32 = (startedModule, some 0)
      ∧ mergedModule.Loaded ∧ monitorInit mergedModule (some 1) 16 32 = (mergedStarted, some 0)
      ∧ 0 ∉ longName ∧ ¬ NameKept startedModule longName [] [] 256
      ∧ ¬ NameKept mergedStarted longName [] [] 256 := by
  refine ⟨loaded_loadedModule, monitorInit_loadedModule, ⟨rfl, rfl, rfl⟩, rfl, by decide,
    fun hkept => ?_, fun hkept => ?_⟩
  · exact absurd hkept.delivered (by decide)
  · exact absurd hkept.delivered (by decide)

end Pnl.TaskMonitorIoctl
