import Pnl.Proof.MkfsGeometry

/-!
# What mkfs reports

The first blocks of every writer report a refused write with -1. The later blocks of the free-block
map and all the data blocks report it with `errno`, which a short write leaves alone: there a short
write is reported as success when `errno` was zero, and `main` goes on or succeeds.
-/

namespace Pnl.Mkfs

open Bytes Writes

variable (env : Env)

def Env.superblock : PnlfsSuperblock := fillSuperblock env.host env.stSize

def Env.callsBeforeBfree : Nat :=
  1 + max 2 (env.superblock.inodes env.host) + max 1 (env.superblock.ifreeBlocks env.host)

def Env.totalCalls : Nat :=
  env.callsBeforeBfree + max 1 (env.superblock.bfreeBlocks env.host) + 3

def Env.requestLength (i : Nat) : Nat :=
  if 1 ≤ i ∧ i < 1 + max 2 (env.superblock.inodes env.host) then sizeofPnlfsInode
  else pnlfsBlockSize

def Env.FullBefore (n : Nat) : Prop := ∀ i < n, env.dev.Full i (env.requestLength i)

/-- `write_bfree_blocks` is reached with more blocks in use than its buffer has bits. -/
def Env.Overruns : Prop :=
  env.malloc = true ∧ env.FullBefore env.callsBeforeBfree
    ∧ 32768 < env.superblock.firstData env.host + 3

/-- The first write that is not full is a short one, comes after the first block of the free-block
map, and finds `errno` zero. -/
def Env.ShortUnnoticed (errno : Int) : Prop :=
  env.malloc = true ∧ errno = 0
    ∧ ∃ i, env.callsBeforeBfree < i ∧ i < env.totalCalls ∧ env.FullBefore i
      ∧ ∃ count, env.dev i pnlfsBlockSize = .short count

/-- What `main` owes its caller: an exit code, success only when all the writes were made and were
full, and nothing but failure after one that was not. -/
structure Reports (result : Fd × Option Int) : Prop where
  returns : result.2 = some exitSuccess ∨ result.2 = some exitFailure
  success : result.2 = some exitSuccess →
    result.1.calls.length = env.totalCalls ∧ ∀ c ∈ result.1.calls, c.Full
  stops : ∀ i (h : i < result.1.calls.length), ¬ result.1.calls[i].Full →
    i + 1 = result.1.calls.length ∧ result.2 = some exitFailure

/-! ### The run as one sequence of writes -/

def Env.early : List (List UInt8) :=
  [env.superblock.bytes env.host] ++ inodeStoreRequests env.host env.superblock
    ++ ifreeRequests env.host env.superblock

def Env.requests (words : List UInt64) : List (List UInt8) :=
  env.early ++ [wordBytes env.host words] ++ bfreeRest env.host env.superblock
    ++ dataRequests env.host env.superblock

theorem length_inodeStoreRequests (host : ByteOrder) (sb : PnlfsSuperblock) :
    (inodeStoreRequests host sb).length = max 2 (sb.inodes host) := by
  rw [inodeStoreRequests, List.length_cons, List.length_cons, List.length_replicate,
    ← PnlfsSuperblock.inodes]
  omega

theorem length_early : env.early.length = env.callsBeforeBfree := by
  have hifree : (ifreeRequests env.host env.superblock).length
      = env.superblock.ifreeBlocks env.host - 1 + 1 := by
    rw [ifreeRequests, List.length_cons, List.length_replicate, ← PnlfsSuperblock.ifreeBlocks]
  rw [Env.early, List.length_append, List.length_append, length_inodeStoreRequests, hifree,
    Env.callsBeforeBfree, List.length_singleton]
  omega

theorem length_bfreeRest :
    (bfreeRest env.host env.superblock).length = max 1 (env.superblock.bfreeBlocks env.host) - 1 := by
  rw [bfreeRest, List.length_replicate, ← PnlfsSuperblock.bfreeBlocks]
  omega

theorem length_requests (words : List UInt64) : (env.requests words).length = env.totalCalls := by
  rw [Env.requests, List.length_append, List.length_append, List.length_append, length_early,
    length_bfreeRest, Env.totalCalls, dataRequests, List.length_singleton]
  simp only [List.length_cons, List.length_nil]
  omega

theorem length_getElem_requests {words : List UInt64} (hwords : words.length = 512) {i : Nat}
    (hi : i < (env.requests words).length) :
    (env.requests words)[i].length = env.requestLength i := by
  have hstore : ∀ r ∈ inodeStoreRequests env.host env.superblock, r.length = sizeofPnlfsInode := by
    intro r hr
    simp only [inodeStoreRequests, List.mem_cons, List.mem_replicate] at hr
    rcases hr with rfl | rfl | ⟨-, rfl⟩ <;> exact length_inodeBytes env.host _
  have hrest : ∀ r ∈ ifreeRequests env.host env.superblock ++ [wordBytes env.host words]
      ++ bfreeRest env.host env.superblock ++ dataRequests env.host env.superblock,
      r.length = pnlfsBlockSize := by
    intro r hr
    simp only [ifreeRequests, bfreeRest, dataRequests, List.mem_append, List.mem_cons,
      List.mem_replicate, List.not_mem_nil, or_false] at hr
    rcases hr with (((rfl | ⟨-, rfl⟩) | rfl) | ⟨-, rfl⟩) | rfl | rfl | rfl
    · exact length_blockWords env.host (by simp)
    · exact length_blockWords env.host length_allFree
    · exact length_blockWords env.host hwords
    · exact length_blockWords env.host length_allFree
    · exact length_dirBlockBytes env.host
    · exact length_indexBlockBytes env.host _
    · exact length_fooData
  have hshape : env.requests words = env.superblock.bytes env.host
      :: (inodeStoreRequests env.host env.superblock
        ++ (ifreeRequests env.host env.superblock ++ [wordBytes env.host words]
          ++ bfreeRest env.host env.superblock ++ dataRequests env.host env.superblock)) := by
    simp [Env.requests, Env.early]
  have hcount := length_inodeStoreRequests env.host env.superblock
  simp only [hshape] at hi ⊢
  cases i with
  | zero => simp [Env.requestLength]
  | succ i =>
      rw [List.getElem_cons_succ]
      by_cases hinode : i < (inodeStoreRequests env.host env.superblock).length
      · rw [List.getElem_append_left hinode, hstore _ (List.getElem_mem _), Env.requestLength,
          if_pos (by omega)]
      · rw [List.getElem_append_right (by omega), hrest _ (List.getElem_mem _), Env.requestLength,
          if_neg (by omega)]

theorem takes_take_requests {words : List UInt64} (hwords : words.length = 512) {n : Nat}
    (hn : n ≤ env.totalCalls) :
    env.dev.Takes 0 ((env.requests words).take n) ↔ env.FullBefore n := by
  have hlength := length_requests env words
  constructor
  · intro h i hi
    have hfull := h i (by rw [List.length_take]; omega)
    rwa [List.getElem_take, length_getElem_requests env hwords (by omega), Nat.zero_add] at hfull
  · intro h i hi
    have hin : i < n := by
      rw [List.length_take] at hi
      omega
    rw [List.getElem_take, length_getElem_requests env hwords (by omega), Nat.zero_add]
    exact h i hin

theorem writeSuperblock_eq (host : ByteOrder) (dev : Device) (stSize : Int64) (fd : Fd) :
    writeSuperblock host dev true stSize fd =
      ((fd.writeAll dev [(fillSuperblock host stSize).bytes host]).1,
        if (fd.writeAll dev [(fillSuperblock host stSize).bytes host]).2 then
          some (fillSuperblock host stSize)
        else none) := by
  simp only [writeSuperblock, if_true, Fd.writeAll, length_superblockBytes]
  split_ifs <;> simp_all

def Env.finish (fd : Fd) : Fd × Option Int :=
  match writeBfreeBlocks env.host env.dev env.superblock fd with
  | (fd, none) => (fd, none)
  | (fd, some ret) =>
      if ret ≠ 0 then (fd, some exitFailure) else
      let (fd, ret) := writeDataBlocks env.host env.dev env.superblock fd
      if ret ≠ 0 then (fd, some exitFailure) else (fd, some exitSuccess)

variable {env}

/-- Up to `write_bfree_blocks`, `main` fails as soon as a write is not full. -/
theorem main_eq (haccept : env.Accepts) (hmalloc : env.malloc = true) (fd : Fd) :
    main env fd =
      if (fd.writeAll env.dev env.early).2 then env.finish (fd.writeAll env.dev env.early).1
      else ((fd.writeAll env.dev env.early).1, some exitFailure) := by
  obtain ⟨hargc, hopen, hfstat, hsize⟩ := haccept
  have hsize' : ¬ env.stSize ≤ minSize := Int64.not_le.mpr hsize
  rw [main, if_neg (by simpa using hargc), if_neg hopen, if_neg (by simpa using hfstat),
    if_neg hsize', hmalloc, writeSuperblock_eq, Env.early, List.append_assoc, writeAll_append,
    ← Env.superblock]
  set r₁ := fd.writeAll env.dev [env.superblock.bytes env.host] with hr₁
  by_cases h₁ : r₁.2 = true
  · rw [if_pos h₁, if_pos h₁, writeAll_append]
    simp only [writeInodeStore_eq, writeIfreeBlocks_eq]
    set r₂ := r₁.1.writeAll env.dev (inodeStoreRequests env.host env.superblock) with hr₂
    by_cases h₂ : r₂.2 = true
    · simp only [h₂, if_true, ne_eq, not_true_eq_false, if_false]
      set r₃ := r₂.1.writeAll env.dev (ifreeRequests env.host env.superblock) with hr₃
      by_cases h₃ : r₃.2 = true
      · simp only [h₃, if_true, not_true_eq_false, if_false]
        rfl
      · simp [h₃]
    · simp [h₂]
  · simp [h₁]

/-- From `write_bfree_blocks` on, a failure with `errno` zero goes unnoticed. -/
theorem finish_eq {words : List UInt64}
    (hwords : clearUsed env.host 512 0 (nrUsedOf env.host env.superblock) allFree = some words)
    (hlength : words.length = 512) (fd : Fd) :
    env.finish fd =
      if (fd.writeAll env.dev [wordBytes env.host words]).2 then
        let r := (fd.writeAll env.dev [wordBytes env.host words]).1.writeAll env.dev
          (bfreeRest env.host env.superblock)
        if r.2 = true ∨ r.1.errno = 0 then
          let d := r.1.writeAll env.dev (dataRequests env.host env.superblock)
          (d.1, some (if d.2 = true ∨ d.1.errno = 0 then exitSuccess else exitFailure))
        else (r.1, some exitFailure)
      else ((fd.writeAll env.dev [wordBytes env.host words]).1, some exitFailure) := by
  have hfirst := length_blockWords env.host hlength
  rw [Env.finish, writeBfreeBlocks_of_clearUsed env.host hwords]
  simp only [Fd.writeAll, hfirst, writeDataBlocks_eq]
  by_cases h₁ : (fd.write env.dev (wordBytes env.host words)).2 = pnlfsBlockSize
  · simp only [h₁, ne_eq, not_true_eq_false, if_false, if_true]
    set r := (fd.write env.dev (wordBytes env.host words)).1.writeAll env.dev
      (bfreeRest env.host env.superblock) with hr
    have hcode : (if r.2 = true then 0 else r.1.errno) = 0 ↔ r.2 = true ∨ r.1.errno = 0 := by
      cases r.2 <;> simp
    by_cases h₂ : r.2 = true ∨ r.1.errno = 0
    · simp only [hcode, h₂, not_true_eq_false, if_false, if_true]
      set d := r.1.writeAll env.dev (dataRequests env.host env.superblock) with hd
      have hcode' : (if d.2 = true then 0 else d.1.errno) = 0 ↔ d.2 = true ∨ d.1.errno = 0 := by
        cases d.2 <;> simp
      by_cases h₃ : d.2 = true ∨ d.1.errno = 0 <;> simp [hcode', h₃]
    · simp [hcode, h₂]
  · simp [h₁]

/-! ### The outcome, by where the run stops -/

section Outcome

variable (haccept : env.Accepts) (hmalloc : env.malloc = true) {words : List UInt64}
  (hwords : clearUsed env.host 512 0 (nrUsedOf env.host env.superblock) allFree = some words)
  (hlength : words.length = 512) {fd : Fd}

include haccept hmalloc hwords hlength

theorem main_of_takes (h : env.dev.Takes fd.calls.length (env.requests words)) :
    main env fd = (fd.wrote (env.requests words), some exitSuccess) := by
  rw [Env.requests] at h ⊢
  obtain ⟨h, hdata⟩ := (takes_append env.dev).mp h
  obtain ⟨h, hrest⟩ := (takes_append env.dev).mp h
  obtain ⟨hearly, hfirst⟩ := (takes_append env.dev).mp h
  rw [main_eq haccept hmalloc, writeAll_of_takes env.dev fd hearly, if_pos rfl,
    finish_eq hwords hlength, writeAll_of_takes env.dev _ (by simpa using hfirst), if_pos rfl,
    writeAll_of_takes env.dev _ (by simpa [Nat.add_assoc] using hrest)]
  simp only [true_or, if_true]
  rw [writeAll_of_takes env.dev _ (by simpa [Nat.add_assoc, Nat.add_comm 1] using hdata)]
  simp only [true_or, if_true, wrote_append]

theorem main_of_stopsAt_early {k : Nat} (h : fd.StopsAt env.dev (env.requests words) k)
    (hk : k ≤ env.callsBeforeBfree) :
    main env fd = (fd.stopped env.dev (env.requests words) k, some exitFailure) := by
  have hshape : env.requests words = env.early ++ ([wordBytes env.host words]
      ++ (bfreeRest env.host env.superblock ++ dataRequests env.host env.superblock)) := by
    simp [Env.requests]
  rw [hshape] at h ⊢
  rw [main_eq haccept hmalloc]
  rcases Nat.lt_or_ge k env.early.length with hlt | hge
  · obtain ⟨hstops, heq⟩ := stopsAt_append_left env.dev h hlt
    rw [writeAll_of_stopsAt env.dev fd hstops, heq]
    rfl
  · obtain ⟨hearly, hstops, heq⟩ := stopsAt_append_right env.dev h hge
    have hzero : k - env.early.length = 0 := by
      rw [length_early]
      omega
    rw [hzero] at hstops heq
    obtain ⟨hstops, heq'⟩ := stopsAt_append_left env.dev hstops (by simp)
    rw [writeAll_of_takes env.dev fd hearly, if_pos rfl, finish_eq hwords hlength,
      writeAll_of_stopsAt env.dev _ hstops, heq, heq']
    rfl

theorem main_of_stopsAt_late {k : Nat} (h : fd.StopsAt env.dev (env.requests words) k)
    (hk : env.callsBeforeBfree < k)
    (herrno : (fd.stopped env.dev (env.requests words) k).errno ≠ 0) :
    main env fd = (fd.stopped env.dev (env.requests words) k, some exitFailure) := by
  have hshape : env.requests words = (env.early ++ [wordBytes env.host words])
      ++ (bfreeRest env.host env.superblock ++ dataRequests env.host env.superblock) := by
    simp [Env.requests]
  rw [hshape] at h herrno ⊢
  obtain ⟨hbefore, hstops, heq⟩ := stopsAt_append_right env.dev h
    (by rw [List.length_append, length_early, List.length_singleton]; omega)
  obtain ⟨hearly, hfirst⟩ := (takes_append env.dev).mp hbefore
  rw [heq] at herrno ⊢
  rw [main_eq haccept hmalloc, writeAll_of_takes env.dev fd hearly, if_pos rfl,
    finish_eq hwords hlength, writeAll_of_takes env.dev _ (by simpa using hfirst), if_pos rfl,
    ← wrote_append]
  generalize k - (env.early ++ [wordBytes env.host words]).length = j at *
  rcases Nat.lt_or_ge j (bfreeRest env.host env.superblock).length with hlt | hge
  · obtain ⟨hstops, heq⟩ := stopsAt_append_left env.dev hstops hlt
    rw [heq] at herrno ⊢
    rw [writeAll_of_stopsAt env.dev _ hstops]
    simp [herrno]
  · obtain ⟨hrest, hstops, heq⟩ := stopsAt_append_right env.dev hstops hge
    rw [heq] at herrno ⊢
    rw [writeAll_of_takes env.dev _ hrest]
    simp only [true_or, if_true]
    rw [writeAll_of_stopsAt env.dev _ hstops]
    simp [herrno]

theorem not_reports_of_stopsAt_late {k : Nat} (h : fd.StopsAt env.dev (env.requests words) k)
    (hk : env.callsBeforeBfree < k)
    (herrno : (fd.stopped env.dev (env.requests words) k).errno = 0) :
    ¬ Reports env (main env fd) := by
  intro hreports
  obtain ⟨c, hc, hcalls⟩ := calls_stopped env.dev fd h
  have hshape : env.requests words = (env.early ++ [wordBytes env.host words])
      ++ (bfreeRest env.host env.superblock ++ dataRequests env.host env.superblock) := by
    simp [Env.requests]
  rw [hshape] at h herrno hcalls
  obtain ⟨hbefore, hstops, heq⟩ := stopsAt_append_right env.dev h
    (by rw [List.length_append, length_early, List.length_singleton]; omega)
  obtain ⟨hearly, hfirst⟩ := (takes_append env.dev).mp hbefore
  have hmain := main_eq haccept hmalloc fd
  rw [writeAll_of_takes env.dev fd hearly, if_pos rfl,
    finish_eq hwords hlength, writeAll_of_takes env.dev _ (by simpa using hfirst), if_pos rfl,
    ← wrote_append] at hmain
  rw [heq] at herrno hcalls
  generalize k - (env.early ++ [wordBytes env.host words]).length = j at *
  rcases Nat.lt_or_ge j (bfreeRest env.host env.superblock).length with hlt | hge
  · obtain ⟨hstops, heq⟩ := stopsAt_append_left env.dev hstops hlt
    rw [heq] at herrno hcalls
    rw [writeAll_of_stopsAt env.dev _ hstops] at hmain
    simp only [Bool.false_eq_true, false_or, herrno, if_true] at hmain
    set stop := ((fd.wrote (env.early ++ [wordBytes env.host words])).stopped env.dev
      (bfreeRest env.host env.superblock) j) with hstop
    have hdata : dataRequests env.host env.superblock ≠ [] := by simp [dataRequests]
    obtain ⟨c', more, hmore⟩ := calls_writeAll env.dev stop hdata
    have hfinal : (main env fd).1.calls
        = (fd.wrote ((env.requests words).take k)).calls ++ c :: c' :: more := by
      rw [hmain]
      dsimp only
      rw [hmore, hcalls, hshape]
      simp
    have hwithin : (fd.wrote ((env.requests words).take k)).calls.length
        < (main env fd).1.calls.length := by
      rw [hfinal]
      simp
    have hcall : (main env fd).1.calls[(fd.wrote ((env.requests words).take k)).calls.length]
        = c := by
      simp only [hfinal]
      rw [List.getElem_append_right (Nat.le_refl _)]
      simp
    have hlast := (hreports.stops _ _ (by rw [hcall]; exact hc)).1
    rw [hfinal, List.length_append, List.length_cons, List.length_cons] at hlast
    omega
  · obtain ⟨hrest, hstops, heq⟩ := stopsAt_append_right env.dev hstops hge
    rw [heq] at herrno hcalls
    rw [writeAll_of_takes env.dev _ hrest] at hmain
    simp only [true_or, if_true] at hmain
    rw [writeAll_of_stopsAt env.dev _ hstops] at hmain
    simp only [Bool.false_eq_true, false_or, herrno, if_true] at hmain
    have hall := (hreports.success (by rw [hmain])).2 c
    rw [hmain] at hall
    exact hc (hall (by rw [hcalls]; simp))

end Outcome

/-! ### Runs from a file nothing was written to -/

theorem requestLength_of_late {i : Nat} (hi : env.callsBeforeBfree < i) :
    env.requestLength i = pnlfsBlockSize := by
  rw [Env.requestLength, if_neg]
  rw [Env.callsBeforeBfree] at hi
  omega

section Fresh

variable {words : List UInt64} {errno : Int}

theorem reports_of_stopped {bufs : List (List UInt8)} {k : Nat}
    (h : ({ calls := [], errno := errno } : Fd).StopsAt env.dev bufs k) :
    Reports env
      (({ calls := [], errno := errno } : Fd).stopped env.dev bufs k, some exitFailure) := by
  obtain ⟨c, hc, hcalls⟩ := calls_stopped env.dev _ h
  refine ⟨Or.inr rfl, fun h => ?_, fun i hi hne => ⟨?_, rfl⟩⟩
  · rw [Option.some.injEq] at h
    exact absurd h (by decide)
  · simp only [hcalls] at hi hne ⊢
    rw [List.length_append, List.length_singleton] at hi ⊢
    by_cases hlast : i = (({ calls := [], errno := errno } : Fd).wrote (bufs.take k)).calls.length
    · omega
    · rw [List.getElem_append_left (by omega)] at hne
      exact absurd (full_of_mem_wrote _ _ (by simp) (List.getElem_mem _)) hne

theorem reports_of_wrote :
    Reports env
      (({ calls := [], errno := errno } : Fd).wrote (env.requests words), some exitSuccess) := by
  have hfull : ∀ c ∈ (({ calls := [], errno := errno } : Fd).wrote (env.requests words)).calls,
      c.Full := fun c hc => full_of_mem_wrote _ _ (by simp) hc
  refine ⟨Or.inl rfl, fun _ => ⟨?_, hfull⟩, fun i hi hne => ?_⟩
  · rw [length_calls_wrote, length_requests]
    simp
  · exact absurd (hfull _ (List.getElem_mem _)) hne

variable (hlength : words.length = 512)

include hlength

theorem facts_of_stopsAt {k : Nat}
    (h : ({ calls := [], errno := errno } : Fd).StopsAt env.dev (env.requests words) k) :
    k < env.totalCalls ∧ env.FullBefore k ∧ ¬ env.dev.Full k (env.requestLength k)
      ∧ ((env.requests words).getD k []).length = env.requestLength k := by
  obtain ⟨hk, htakes, hne⟩ := h
  have hcount : k < env.totalCalls := by rwa [length_requests] at hk
  have hget : ((env.requests words).getD k []).length = env.requestLength k := by
    rw [List.getD_eq_getElem _ _ hk, length_getElem_requests env hlength hk]
  refine ⟨hcount, (takes_take_requests env hlength (Nat.le_of_lt hcount)).mp htakes, ?_, hget⟩
  rw [hget] at hne
  simpa using hne

theorem eq_of_fullBefore {k i : Nat}
    (h : ({ calls := [], errno := errno } : Fd).StopsAt env.dev (env.requests words) k)
    (hfull : env.FullBefore i) (hi : ¬ env.dev.Full i (env.requestLength i)) : i = k := by
  obtain ⟨-, hbefore, hne, -⟩ := facts_of_stopsAt hlength h
  rcases Nat.lt_trichotomy i k with hlt | heq | hgt
  · exact absurd (hbefore i hlt) hi
  · exact heq
  · exact absurd (hfull k hgt) hne

end Fresh

section Reports

variable (haccept : env.Accepts) (hmalloc : env.malloc = true) (errno : Int)

include haccept hmalloc

theorem reports_main_of_fits (hfit : env.superblock.firstData env.host + 3 ≤ 32768) :
    Reports env (main env { calls := [], errno := errno }) ↔ ¬ env.ShortUnnoticed errno := by
  have hused : (nrUsedOf env.host env.superblock).toNat = env.superblock.firstData env.host + 3 :=
    toNat_nrUsedOf (by omega)
  obtain ⟨words, hwords, hlength, -⟩ :=
    clearUsed_allFree env.host (nrUsedOf env.host env.superblock) (by omega)
  rcases writeAll_cases env.dev { calls := [], errno := errno } (env.requests words) with
    htakes | ⟨k, hstops⟩
  · rw [main_of_takes haccept hmalloc hwords hlength htakes]
    have hfull : env.FullBefore env.totalCalls := by
      apply (takes_take_requests env hlength (Nat.le_refl _)).mp
      rwa [List.take_of_length_le (by rw [length_requests])]
    refine iff_of_true (reports_of_wrote) ?_
    rintro ⟨-, -, i, hlate, hi, -, count, hshort⟩
    have hcall := hfull i hi
    rw [requestLength_of_late hlate, Device.Full, hshort] at hcall
    exact absurd hcall (by simp)
  · obtain ⟨hcount, hbefore, hne, hget⟩ := facts_of_stopsAt hlength hstops
    -- an unnoticed short write could only be the one that stops the run
    have hunnoticed : env.ShortUnnoticed errno → errno = 0 ∧ env.callsBeforeBfree < k
        ∧ ∃ count, env.dev k pnlfsBlockSize = .short count := by
      rintro ⟨-, hzero, i, hlate, -, hfull, hshort⟩
      have hik : i = k := by
        apply eq_of_fullBefore hlength hstops hfull
        obtain ⟨count, hshort⟩ := hshort
        rw [requestLength_of_late hlate, Device.Full, hshort]
        simp
      rw [← hik]
      exact ⟨hzero, hlate, hshort⟩
    rcases Nat.lt_or_ge env.callsBeforeBfree k with hlate | hearly
    · have hrequest : ((env.requests words).getD k []).length = pnlfsBlockSize := by
        rw [hget, requestLength_of_late hlate]
      have herrno := errno_stopped env.dev _ hstops
      rw [hrequest] at herrno
      simp only [List.length_nil, Nat.zero_add] at herrno
      by_cases hset : (({ calls := [], errno := errno } : Fd).stopped env.dev
          (env.requests words) k).errno = 0
      · refine iff_of_false (not_reports_of_stopsAt_late haccept hmalloc hwords hlength hstops
          hlate hset) (not_not.mpr ?_)
        rcases herrno with ⟨hshort, hsame⟩ | ⟨-, hne⟩
        · exact ⟨hmalloc, hsame ▸ hset, k, hlate, hcount, hbefore, hshort⟩
        · exact absurd hset hne
      · rw [main_of_stopsAt_late haccept hmalloc hwords hlength hstops hlate hset]
        refine iff_of_true (reports_of_stopped hstops) fun h => ?_
        obtain ⟨hzero, -, hshort⟩ := hunnoticed h
        rcases herrno with ⟨-, hsame⟩ | ⟨⟨e, herror⟩, -⟩
        · exact hset (hsame.trans hzero)
        · obtain ⟨count, hshort⟩ := hshort
          rw [herror] at hshort
          exact absurd hshort (by simp)
    · rw [main_of_stopsAt_early haccept hmalloc hwords hlength hstops hearly]
      refine iff_of_true (reports_of_stopped hstops) fun h => ?_
      have := (hunnoticed h).2.1
      omega

theorem reports_main_of_overruns (hfit : 32768 < env.superblock.firstData env.host + 3)
    (hused : (nrUsedOf env.host env.superblock).toNat = env.superblock.firstData env.host + 3) :
    Reports env (main env { calls := [], errno := errno }) ↔
      ¬ env.FullBefore env.callsBeforeBfree := by
  have hprefix : (env.requests allFree).take env.callsBeforeBfree = env.early := by
    rw [← length_early, Env.requests, List.append_assoc, List.append_assoc, List.take_left]
  have htakes : env.dev.Takes 0 env.early ↔ env.FullBefore env.callsBeforeBfree := by
    rw [← hprefix]
    exact takes_take_requests env length_allFree (by rw [Env.totalCalls]; omega)
  have hoverrun : ∀ fd, env.finish fd = (fd, none) := by
    intro fd
    rw [Env.finish, writeBfreeBlocks, clearUsed_overrun env.host _ _ _ _ (by omega)]
  rw [← htakes, main_eq haccept hmalloc]
  rcases writeAll_cases env.dev { calls := [], errno := errno } env.early with hfull | ⟨k, hstops⟩
  · rw [writeAll_of_takes env.dev _ hfull, if_pos rfl, hoverrun]
    refine iff_of_false (fun h => ?_) (not_not.mpr hfull)
    rcases h.returns with h | h <;> simp at h
  · rw [writeAll_of_stopsAt env.dev _ hstops, if_neg Bool.false_ne_true]
    refine iff_of_true (reports_of_stopped hstops) fun htakes => ?_
    obtain ⟨hk, -, hne⟩ := hstops
    rw [List.getD_eq_getElem _ _ hk] at hne
    exact hne (htakes k hk)

end Reports

/-- **`main` reports what happened exactly when no map overruns its buffer and no short write comes
late with `errno` zero.** -/
theorem reports_main_iff (haccept : env.Accepts) (errno : Int) :
    Reports env (main env { calls := [], errno := errno }) ↔
      ¬ env.Overruns ∧ ¬ env.ShortUnnoticed errno := by
  have hsize : minSize < env.stSize := haccept.2.2.2
  have hbound : env.superblock.firstData env.host < 2 ^ 32 - 3 := by
    have := firstData_fillSuperblock_lt env.host hsize
    rw [Env.superblock]
    omega
  have hused : (nrUsedOf env.host env.superblock).toNat = env.superblock.firstData env.host + 3 :=
    toNat_nrUsedOf (by omega)
  by_cases hmalloc : env.malloc = true
  · rcases Nat.lt_or_ge 32768 (env.superblock.firstData env.host + 3) with hover | hfit
    · rw [reports_main_of_overruns haccept hmalloc errno hover hused]
      constructor
      · intro hbefore
        refine ⟨fun h => hbefore h.2.1, ?_⟩
        rintro ⟨-, -, i, hlate, -, hfull, -⟩
        exact hbefore fun j hj => hfull j (by omega)
      · rintro ⟨hnot, -⟩ hbefore
        exact hnot ⟨hmalloc, hbefore, hover⟩
    · rw [reports_main_of_fits haccept hmalloc errno hfit]
      have hnot : ¬ env.Overruns := fun h => by
        have := h.2.2
        omega
      exact ⟨fun h => ⟨hnot, h⟩, And.right⟩
  · have hmain : main env { calls := [], errno := errno }
        = ({ calls := [], errno := errno }, some exitFailure) := by
      obtain ⟨hargc, hopen, hfstat, -⟩ := haccept
      rw [main, if_neg (by simpa using hargc), if_neg hopen, if_neg (by simpa using hfstat),
        if_neg (Int64.not_le.mpr hsize), writeSuperblock, if_neg hmalloc]
    rw [hmain]
    refine iff_of_true ⟨Or.inr rfl, fun h => ?_, fun i hi => absurd hi (Nat.not_lt_zero i)⟩
      ⟨fun h => hmalloc h.1, fun h => hmalloc h.1⟩
    rw [Option.some.injEq] at h
    exact absurd h (by decide)

/-- A disk that is full from call number `start` on: `write` transfers nothing and sets no `errno`. -/
def fullDisk (start : Nat) : Device := fun call len =>
  if h : start ≤ call ∧ 0 < len then .short ⟨0, h.2⟩ else .full

def lastBlockRefused : Env := { makefileImage with dev := fullDisk 7685 }

theorem reports_main_errnoSet :
    Reports lastBlockRefused (main lastBlockRefused { calls := [], errno := 28 }) :=
  (reports_main_iff (by decide) 28).mpr
    ⟨fun h => absurd h.2.2 (by decide), fun h => absurd h.2.1 (by decide)⟩

theorem not_reports_lastBlockRefused :
    lastBlockRefused.Accepts
      ∧ ¬ Reports lastBlockRefused (main lastBlockRefused { calls := [], errno := 0 }) := by
  have haccept : lastBlockRefused.Accepts := by decide
  obtain ⟨words, hwords, hlength, -⟩ := clearUsed_allFree lastBlockRefused.host
    (nrUsedOf lastBlockRefused.host lastBlockRefused.superblock) (by decide)
  have hcount : lastBlockRefused.totalCalls = 7686 := by decide
  have hlate : lastBlockRefused.callsBeforeBfree < 7685 := by decide
  have hk : 7685 < (lastBlockRefused.requests words).length := by
    rw [length_requests, hcount]
    omega
  have hrequest : ((lastBlockRefused.requests words).getD 7685 []).length = 4096 := by
    rw [List.getD_eq_getElem _ _ hk, length_getElem_requests _ hlength hk,
      requestLength_of_late hlate, pnlfsBlockSize]
  have hstops : ({ calls := [], errno := 0 } : Fd).StopsAt lastBlockRefused.dev
      (lastBlockRefused.requests words) 7685 := by
    refine ⟨hk, ?_, ?_⟩
    · apply (takes_take_requests _ hlength (by rw [hcount]; omega)).mpr
      intro i hi
      exact dif_neg fun h => by omega
    · rw [hrequest, Device.Full]
      simp [lastBlockRefused, fullDisk]
  refine ⟨haccept, not_reports_of_stopsAt_late haccept rfl hwords hlength hstops hlate ?_⟩
  rcases errno_stopped _ _ hstops with ⟨-, hsame⟩ | ⟨⟨e, herror⟩, -⟩
  · exact hsame
  · rw [hrequest] at herror
    simp [lastBlockRefused, fullDisk] at herror

end Pnl.Mkfs
