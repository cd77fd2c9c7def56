import Pnl.UnameModule

/-!
# The names before and after

A `my_name` of up to 64 characters fits into `sysname`: no other field is written to, and unloading
the module brings all strings back. A longer one is written on into `nodename` and the fields behind
it, of which nothing has been saved. That goes unseen only if it ends in `nodename` and writes there
what `nodename` held; one that goes further has replaced the zero that ended `nodename`.
-/

namespace Pnl.UnameModule

open Bytes CStrings

/-- What the module finds: fields that end, and a parameter that stands in memory of its own. -/
structure Ready (l : Layout) (m : Memory) (kernelName : Nat) (myName : List UInt8) : Prop where
  parameter : IsString m kernelName myName
  fields : ∀ f, ∃ i ≤ newUtsLen, m (l.field f + i) = 0
  saveApart : kernelName + myName.length < l.save ∨ l.save + (newUtsLen + 1) ≤ kernelName
  nameApart : kernelName + myName.length < l.name ∨ l.name + 6 * (newUtsLen + 1) ≤ kernelName

/-- Loading the module writes to no field but `sysname`, and unloading it then leaves each field with
the string it had. -/
def Restores (l : Layout) (m : Memory) (kernelName : Nat) : Prop :=
  ∃ m₁ m₂,
    (∃ turns, helloInit l turns kernelName m = some (m₁, 0)) ∧
    (∃ turns, helloExit l turns m₁ = some m₂) ∧
    (∀ f ≠ Field.sysname, ∀ i ≤ newUtsLen, m₁ (l.field f + i) = m (l.field f + i)) ∧
    ∀ f s, IsString m (l.field f) s → IsString m₂ (l.field f) s

/-- The parameter fits into `sysname`, or what does not fit is the string that `nodename` has. -/
def Harmless (l : Layout) (m : Memory) (myName : List UInt8) : Prop :=
  myName.length ≤ newUtsLen ∨
    newUtsLen < myName.length ∧ IsString m (l.field .nodename) (myName.drop (newUtsLen + 1))

theorem field_sysname (l : Layout) : l.field .sysname = l.name := by
  rw [Layout.field, Field.index, Nat.zero_mul, Nat.add_zero]

theorem field_nodename (l : Layout) : l.field .nodename = l.name + (newUtsLen + 1) := by
  rw [Layout.field, Field.index, Nat.one_mul]

theorem field_other (l : Layout) {f : Field} (hf : f ≠ .sysname) :
    f = .nodename ∨ l.name + 2 * (newUtsLen + 1) ≤ l.field f := by
  unfold Layout.field newUtsLen
  cases f with
  | sysname => exact absurd rfl hf
  | nodename => exact Or.inl rfl
  | release | version | machine | domainname => exact Or.inr (by simp only [Field.index]; omega)

theorem field_behind (l : Layout) {f : Field} (hf : f ≠ .sysname) :
    l.name + (newUtsLen + 1) ≤ l.field f := by
  obtain rfl | hother := field_other l hf
  · exact Nat.le_of_eq (field_nodename l).symm
  · omega

theorem field_le (l : Layout) (f : Field) :
    l.name ≤ l.field f ∧ l.field f + (newUtsLen + 1) ≤ l.name + 6 * (newUtsLen + 1) := by
  unfold Layout.field newUtsLen
  cases f <;> simp only [Field.index] <;> omega

variable {l : Layout} {m : Memory} {kernelName : Nat} {myName saved : List UInt8}

theorem Ready.exists_isString (h : Ready l m kernelName myName) (f : Field) :
    ∃ s, IsString m (l.field f) s ∧ s.length ≤ newUtsLen := by
  obtain ⟨i, hi, hzero⟩ := h.fields f
  obtain ⟨s, hs, hlength⟩ := CStrings.exists_isString hzero
  exact ⟨s, hs, Nat.le_trans hlength hi⟩

theorem Ready.length_le (h : Ready l m kernelName myName) {f : Field} {s : List UInt8}
    (hs : IsString m (l.field f) s) : s.length ≤ newUtsLen := by
  obtain ⟨i, hi, hzero⟩ := h.fields f
  exact Nat.le_trans (hs.length_le hzero) hi

theorem Ready.exists_sysname (h : Ready l m kernelName myName) :
    ∃ saved, IsString m l.name saved ∧ saved.length ≤ newUtsLen := by
  rw [← field_sysname]
  exact h.exists_isString .sysname

theorem Harmless.length_le (hharmless : Harmless l m myName) (h : Ready l m kernelName myName) :
    myName.length ≤ 2 * newUtsLen + 1 := by
  obtain hshort | ⟨-, hnodename⟩ := hharmless
  · omega
  · have hends := h.length_le hnodename
    rw [List.length_drop] at hends
    omega

/-! ### Loading -/

/-- What `hello_init` leaves, where `saved` is the string it found in `sysname`. -/
def loaded (l : Layout) (m : Memory) (saved myName : List UInt8) : Memory :=
  put (put m l.save (saved ++ [0])) l.name (myName ++ [0])

theorem helloInit_iff (h : Ready l m kernelName myName) (hsaved : IsString m l.name saved)
    (hlength : saved.length ≤ newUtsLen) {m₁ : Memory} :
    (∃ turns, helloInit l turns kernelName m = some (m₁, 0)) ↔ m₁ = loaded l m saved myName := by
  have hsave := l.saveApart
  have hname := h.nameApart
  have hparameter : IsString (put m l.save (saved ++ [0])) kernelName myName := by
    have happart := h.saveApart
    exact h.parameter.congr fun i hi => put_string_of_outside (by omega)
  have hrun (turns : Nat) : helloInit l turns kernelName m =
      if saved.length < turns ∧ myName.length < turns then some (loaded l m saved myName, 0)
      else none := by
    rw [helloInit, field_sysname, strcpy_eq hsaved (by omega)]
    split
    · rw [Option.bind_eq_bind, Option.bind_some, strcpy_eq hparameter (by omega)]
      split
      · rw [if_pos ⟨by assumption, by assumption⟩]
        rfl
      · rw [if_neg (by omega)]
        rfl
    · rw [if_neg (by omega)]
      rfl
  constructor
  · rintro ⟨turns, hinit⟩
    rw [hrun] at hinit
    split at hinit
    · exact (congrArg Prod.fst (Option.some.inj hinit)).symm
    · cases hinit
  · rintro rfl
    refine ⟨max saved.length myName.length + 1, ?_⟩
    rw [hrun, if_pos (by omega)]

theorem loaded_isString (h : Ready l m kernelName myName) :
    IsString (loaded l m saved myName) l.name myName :=
  isString_put _ _ h.parameter.notMem

theorem loaded_of_outside {x : Nat} (hlength : saved.length ≤ newUtsLen)
    (hsave : x < l.save ∨ l.save + (newUtsLen + 1) ≤ x)
    (hname : x < l.name ∨ l.name + myName.length < x) :
    loaded l m saved myName x = m x := by
  rw [loaded, put_string_of_outside hname, put_string_of_outside]
  omega

/-- **Which names leave the other fields alone.** -/
theorem loaded_fields_iff (h : Ready l m kernelName myName) (hlength : saved.length ≤ newUtsLen) :
    (∀ f ≠ Field.sysname, ∀ i ≤ newUtsLen,
        loaded l m saved myName (l.field f + i) = m (l.field f + i)) ↔ Harmless l m myName := by
  have hsave := l.saveApart
  have hrest (hlong : newUtsLen < myName.length) :
      IsString (loaded l m saved myName) (l.field .nodename) (myName.drop (newUtsLen + 1)) := by
    rw [field_nodename]
    exact (loaded_isString h).drop hlong
  constructor
  · intro hsame
    obtain hlong | hshort := Nat.lt_or_ge newUtsLen myName.length
    · right
      refine ⟨hlong, ?_⟩
      -- `nodename` has kept its string, and it reads the rest of the name
      obtain ⟨s, hs, hle⟩ := h.exists_isString .nodename
      have hkept : IsString (loaded l m saved myName) (l.field .nodename) s :=
        hs.congr fun i hi => hsame .nodename (by decide) i (Nat.le_trans hi hle)
      rw [(hrest hlong).unique hkept]
      exact hs
    · exact Or.inl hshort
  · intro hname f hf i hi
    have hfield := field_le l f
    obtain hshort | ⟨hlong, hnodename⟩ := hname
    · have hbehind := field_behind l hf
      exact loaded_of_outside hlength (by omega) (by omega)
    · have hends := Harmless.length_le (Or.inr ⟨hlong, hnodename⟩) h
      obtain rfl | hother := field_other l hf
      · by_cases hin : i ≤ (myName.drop (newUtsLen + 1)).length
        · exact (hrest hlong).agree hnodename hin
        · rw [List.length_drop] at hin
          have hstart := field_nodename l
          exact loaded_of_outside hlength (by omega) (by omega)
      · exact loaded_of_outside hlength (by omega) (by omega)

/-! ### Unloading -/

theorem helloExit_iff (hlength : saved.length ≤ newUtsLen)
    (hsaved : IsString m l.save saved) {m₂ : Memory} :
    (∃ turns, helloExit l turns m = some m₂) ↔ m₂ = put m l.name (saved ++ [0]) := by
  have hsave := l.saveApart
  unfold helloExit
  rw [field_sysname]
  exact strcpy_iff hsaved (by omega)

theorem loaded_save (hlength : saved.length ≤ newUtsLen) (hmem : 0 ∉ saved)
    (hname : myName.length ≤ 2 * newUtsLen + 1) :
    IsString (loaded l m saved myName) l.save saved := by
  have hsave := l.saveApart
  exact (isString_put m l.save hmem).congr fun i hi => put_string_of_outside (by omega)

theorem unloaded_isString (h : Ready l m kernelName myName) (hsaved : IsString m l.name saved)
    (hlength : saved.length ≤ newUtsLen)
    (hsame : ∀ f ≠ Field.sysname, ∀ i ≤ newUtsLen,
      loaded l m saved myName (l.field f + i) = m (l.field f + i))
    (f : Field) {s : List UInt8} (hs : IsString m (l.field f) s) :
    IsString (put (loaded l m saved myName) l.name (saved ++ [0])) (l.field f) s := by
  by_cases hf : f = .sysname
  · subst hf
    rw [field_sysname] at hs ⊢
    rw [hs.unique hsaved]
    exact isString_put _ _ hsaved.notMem
  · have hbehind := field_behind l hf
    have hkept : IsString (loaded l m saved myName) (l.field f) s :=
      hs.congr fun i hi => hsame f hf i (Nat.le_trans hi (h.length_le hs))
    exact hkept.congr fun i hi => put_string_of_outside (by omega)

theorem Restores.harmless (hrestores : Restores l m kernelName) (h : Ready l m kernelName myName) :
    Harmless l m myName := by
  obtain ⟨saved, hsaved, hlength⟩ := h.exists_sysname
  obtain ⟨m₁, m₂, hinit, -, hsame, -⟩ := hrestores
  rw [helloInit_iff h hsaved hlength] at hinit
  rw [hinit] at hsame
  exact (loaded_fields_iff h hlength).1 hsame

theorem Harmless.restores (hharmless : Harmless l m myName) (h : Ready l m kernelName myName) :
    Restores l m kernelName := by
  obtain ⟨saved, hsaved, hlength⟩ := h.exists_sysname
  have hsame := (loaded_fields_iff h hlength).2 hharmless
  have hname := hharmless.length_le h
  have hsave := loaded_save (l := l) (m := m) hlength hsaved.notMem hname
  exact ⟨_, _, (helloInit_iff h hsaved hlength).2 rfl, (helloExit_iff hlength hsave).2 rfl, hsame,
    fun f s => unloaded_isString h hsaved hlength hsame f⟩

/-- **When the module gives back what it found.** -/
theorem restores_iff (h : Ready l m kernelName myName) :
    Restores l m kernelName ↔ Harmless l m myName :=
  ⟨fun hrestores => hrestores.harmless h, fun hharmless => hharmless.restores h⟩

/-! A machine named `arch` that runs Linux, and a load with the parameter `myName`. -/

def testLayout : Layout where
  name := 0
  save := 390
  saveApart := Or.inr (by decide)

def testMemory (myName : List UInt8) : Memory :=
  put (put (put (fun _ => 0) 0 (ascii ['L', 'i', 'n', 'u', 'x'])) 65 (ascii ['a', 'r', 'c', 'h']))
    455 (myName ++ [0])

theorem testMemory_below {myName : List UInt8} {x : Nat} (hx : x < 455) :
    testMemory myName x =
      put (put (fun _ => 0) 0 (ascii ['L', 'i', 'n', 'u', 'x'])) 65 (ascii ['a', 'r', 'c', 'h']) x :=
  put_of_outside (Or.inl hx)

theorem ready_testMemory (hmem : 0 ∉ myName) :
    Ready testLayout (testMemory myName) 455 myName where
  parameter := isString_put _ _ hmem
  fields f := by
    refine ⟨newUtsLen, Nat.le_refl _, ?_⟩
    cases f <;> exact (testMemory_below (by decide)).trans (by decide)
  saveApart := Or.inr (by decide)
  nameApart := Or.inr (by decide)

theorem restores_default : Restores testLayout (testMemory defaultKernelName) 455 :=
  (restores_iff (ready_testMemory (by decide))).2 (Or.inl (by decide))

/-- A parameter of 65 characters leaves an empty `nodename`. -/
theorem not_restores_replicate :
    Ready testLayout (testMemory (List.replicate 65 97)) 455 (List.replicate 65 97) ∧
      ¬ Restores testLayout (testMemory (List.replicate 65 97)) 455 := by
  have hready : Ready testLayout (testMemory (List.replicate 65 97)) 455 (List.replicate 65 97) :=
    ready_testMemory (by decide)
  refine ⟨hready, fun hrestores => ?_⟩
  obtain hshort | ⟨-, hnodename⟩ := hrestores.harmless hready
  · exact absurd hshort (by decide)
  · have hends : testMemory (List.replicate 65 97) 65 = 0 := hnodename.ends
    rw [testMemory_below (by decide)] at hends
    exact absurd hends (by decide)

end Pnl.UnameModule
