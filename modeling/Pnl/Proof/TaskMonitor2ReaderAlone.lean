import Pnl.Proof.TaskMonitor2Calls
import Pnl.TaskMonitor2Reader

/-!
# A reader alone

What each step of a reader does while the references are in order, and that a reader which nobody
interrupts ends where the show function does, with the same output.
-/

namespace Pnl.TaskMonitor2

open Bytes Krefs

/-! ### References under way -/

section References

variable {mref tref : Addr → Int32} {s : State} (h : Counted mref tref s)

include h

theorem Counted.withMonitors_eq {m : Addr} (hm : m ∈ s.tasks) (hne : mref m ≠ 0) :
    s.withMonitors (s.monitors.getUnlessZero m).1 = s.setMref m (mref m + 1) := by
  have href := h.mref m hm
  rw [getUnlessZero_of_mem (h.monitors m hm) (href ▸ hne), href]
  rfl

theorem Counted.krefGetMonitor {m : Addr} (hm : m ∈ s.tasks) (hne : mref m ≠ 0) :
    s.krefGetMonitor m = (s.setMref m (mref m + 1), true) := by
  have href := h.mref m hm
  rw [krefGetMonitor_eq (h.monitors m hm) (href ▸ hne), h.withMonitors_eq hm hne]

theorem Counted.krefPutMonitor {m : Addr} (hm : m ∈ s.tasks) (hne : mref m - 1 ≠ 0) :
    s.krefPutMonitor m = s.setMref m (mref m - 1) := by
  rw [State.krefPutMonitor, put_of_mem (h.monitors m hm), h.mref m hm, decide_eq_false hne]
  rfl

theorem Counted.krefGetSample {t : Addr} (ht : t ∈ s.samples.live) (hne : tref t ≠ 0) :
    s.krefGetSample t = (s.setTref t (tref t + 1), true) := by
  have href := h.tref t ht
  rw [krefGetSample_eq ht (href ▸ hne), getUnlessZero_of_mem ht (href ▸ hne), href]
  rfl

theorem Counted.krefPutSample {t : Addr} (ht : t ∈ s.samples.live) (hne : tref t - 1 ≠ 0) :
    s.krefPutSample t = s.setTref t (tref t - 1) := by
  rw [State.krefPutSample, put_of_mem ht, h.tref t ht, decide_eq_false hne]
  rfl

end References

/-! ### The steps of a reader -/

section Steps

variable {emit : Emit} {mref tref : Addr → Int32} {s : State} (h : Counted mref tref s)
  {m t : Addr} {pid : Int32} {out out' : Output}

theorem read_format (ht : t ∈ s.samples.live) (hemitted : emit pid (s.times t) out = some out') :
    Config.read emit ⟨s, .sample m t .format, pid, out⟩ = ⟨s, .sample m t .drop, pid, out'⟩ := by
  rw [Config.read]
  dsimp only
  rw [hemitted, State.touchSample, touch_of_mem ht]

theorem read_move (ht : t ∈ s.samples.live) (hmem : t ∈ s.head m) (hlink : t ∉ s.bent) :
    Config.read emit ⟨s, .sample m t .move, pid, out⟩
      = ⟨s, atSample m (listPrev (s.head m) t), pid, out⟩ := by
  have htouch : s.touchSample t = s := by rw [State.touchSample, touch_of_mem ht]
  rw [Config.read]
  dsimp only
  rw [htouch, followPrev_of_notMem hlink, if_pos ⟨hmem, hlink⟩]

include h

theorem Counted.read_monitor (hm : m ∈ s.tasks) (hne : mref m ≠ 0) :
    Config.read emit ⟨s, .monitor m, pid, out⟩
      = ⟨s.setMref m (mref m + 1), atSample m (s.head m).getLast?, s.pid m, out⟩ := by
  rw [Config.read]
  dsimp only
  rw [h.krefGetMonitor hm hne, if_pos rfl]
  rfl

theorem Counted.read_take (ht : t ∈ s.samples.live) (hne : tref t ≠ 0) :
    Config.read emit ⟨s, .sample m t .take, pid, out⟩
      = ⟨s.setTref t (tref t + 1), .sample m t .format, pid, out⟩ := by
  rw [Config.read]
  dsimp only
  rw [h.krefGetSample ht hne, if_pos rfl]

theorem Counted.read_drop (ht : t ∈ s.samples.live) (hne : tref t - 1 ≠ 0) :
    Config.read emit ⟨s, .sample m t .drop, pid, out⟩
      = ⟨s.setTref t (tref t - 1), .sample m t .move, pid, out⟩ := by
  rw [Config.read]
  dsimp only
  rw [h.krefPutSample ht hne]

theorem Counted.read_endOfSamples (hm : m ∈ s.tasks) (hne : mref m - 1 ≠ 0) :
    Config.read emit ⟨s, .endOfSamples m, pid, out⟩
      = ⟨s.setMref m (mref m - 1), .nextMonitor m, pid, out⟩ := by
  rw [Config.read]
  dsimp only
  rw [h.krefPutMonitor hm hne]

theorem Counted.read_nextMonitor (hm : m ∈ s.tasks) :
    Config.read emit ⟨s, .nextMonitor m, pid, out⟩
      = ⟨s, atMonitor (listNext s.tasks m), pid, out⟩ := by
  rw [Config.read]
  dsimp only
  rw [h.touchMonitor_eq hm]

end Steps

/-! ### A reader alone -/

theorem setMref_restore (s : State) (m : Addr) (v : Int32) :
    (s.setMref m v).setMref m (s.monitors.refs m) = s := by
  rw [State.setMref, State.setMref]
  dsimp only
  rw [Function.update_idem, Function.update_eq_self]

theorem setTref_restore (s : State) (t : Addr) (v : Int32) :
    (s.setTref t v).setTref t (s.samples.refs t) = s := by
  rw [State.setTref, State.setTref]
  dsimp only
  rw [Function.update_idem, Function.update_eq_self]

theorem listPrev_append {rest : List Addr} {t : Addr} (ht : t ∉ rest) (post : List Addr) :
    listPrev (rest ++ t :: post) t = rest.getLast? := by
  have hrest : rest.takeWhile (· ≠ t) = rest := by
    rw [List.takeWhile_eq_self_iff]
    intro x hx
    exact decide_eq_true fun hxt => ht (hxt ▸ hx)
  rw [listPrev, List.takeWhile_append, hrest, if_pos rfl, List.takeWhile_cons_of_neg (by simp),
    List.append_nil]

theorem listNext_append {before : List Addr} {m : Addr} (hm : m ∉ before) (ms : List Addr) :
    listNext (before ++ m :: ms) m = ms.head? := by
  have hbefore : before.dropWhile (· ≠ m) = [] := by
    rw [List.dropWhile_eq_nil_iff]
    intro x hx
    exact decide_eq_true fun hxm => hm (hxm ▸ hx)
  rw [listNext, List.dropWhile_append, hbefore, if_pos List.isEmpty_nil,
    List.dropWhile_cons_of_neg (by simp), List.tail_cons]

theorem Counted.read_sample {emit : Emit} {mref : Addr → Int32} {s : State}
    (h : Counted mref (fun _ => 1) s) (hlinked : s.Linked) {m t : Addr} (hm : m ∈ s.tasks)
    (ht : t ∈ s.head m) {pid : Int32} {out out' : Output}
    (hemitted : emit pid (s.times t) out = some out') :
    (Config.read emit)^[4] ⟨s, .sample m t .take, pid, out⟩
      = ⟨s, atSample m (listPrev (s.head m) t), pid, out'⟩ := by
  have hlive : t ∈ s.samples.live := h.samples m hm t ht
  have hheld := h.setTref t (1 + 1)
  have hback : (s.setTref t (1 + 1)).setTref t (1 + 1 - 1) = s := by
    rw [Int32.add_sub_cancel, ← h.tref t hlive]
    exact setTref_restore s t _
  have hformat : Config.read emit ⟨s.setTref t (1 + 1), .sample m t .format, pid, out⟩
      = ⟨s.setTref t (1 + 1), .sample m t .drop, pid, out'⟩ := read_format hlive hemitted
  have hdrop : Config.read emit ⟨s.setTref t (1 + 1), .sample m t .drop, pid, out'⟩
      = ⟨s, .sample m t .move, pid, out'⟩ := by
    rw [hheld.read_drop hlive (by rw [Function.update_self]; decide), Function.update_self, hback]
  rw [Function.iterate_succ_apply, h.read_take hlive (refs_one_ne_zero t),
    Function.iterate_succ_apply, hformat, Function.iterate_succ_apply, hdrop,
    Function.iterate_one, read_move hlive ht (hlinked m hm t ht)]

theorem Counted.read_samples {emit : Emit} {P : Output → Prop} (hemit : emit.Keeps P)
    {mref : Addr → Int32} {s : State} (h : Counted mref (fun _ => 1) s) (hlinked : s.Linked)
    {m : Addr} (hm : m ∈ s.tasks) (pid : Int32) {rest post : List Addr} (hhead : s.head m = rest ++ post)
    {out : Output} (hout : P out) :
    ∃ n, (Config.read emit)^[n] ⟨s, atSample m rest.getLast?, pid, out⟩
      = ⟨s, .endOfSamples m, pid, (showSamples emit pid s rest.reverse out).2.1⟩ := by
  induction rest using List.reverseRecOn generalizing post out with
  | nil => exact ⟨0, rfl⟩
  | append_singleton rest t ih =>
      have hsplit : s.head m = rest ++ t :: post := by
        rw [hhead, List.append_assoc, List.singleton_append]
      have ht : t ∈ s.head m := by simp [hsplit]
      have hlive : t ∈ s.samples.live := h.samples m hm t ht
      have hne : s.samples.refs t ≠ 0 := by
        rw [h.tref t hlive]
        decide
      have hnotin : t ∉ rest := by
        have hnodup := h.head_nodup m hm
        rw [hsplit] at hnodup
        exact fun hmem => (List.nodup_append.mp hnodup).2.2 t hmem t (by simp) rfl
      obtain ⟨out', hemitted, hout'⟩ := hemit pid (s.times t) out hout
      obtain ⟨n, hn⟩ := ih hsplit hout'
      refine ⟨n + 4, ?_⟩
      have hfirst := h.read_sample hlinked hm ht hemitted
      rw [hsplit, listPrev_append hnotin] at hfirst
      rw [Function.iterate_add_apply, List.getLast?_concat, atSample, hfirst, hn,
        List.reverse_append, List.reverse_singleton, List.singleton_append,
        showSamples_cons hlive hne (hlinked m hm t ht) hemitted]

theorem Accounted.read_monitors {emit : Emit} {P : Output → Prop} (hemit : emit.Keeps P) {s : State}
    (h : Accounted s) {before ms : List Addr} (htasks : s.tasks = before ++ ms) (pid : Int32)
    {out : Output} (hout : P out) :
    ∃ n pid', (Config.read emit)^[n] ⟨s, atMonitor ms.head?, pid, out⟩
      = ⟨s, .returned, pid', (showMonitors emit s ms out).2.1⟩ := by
  induction ms generalizing before pid out with
  | nil => exact ⟨0, pid, rfl⟩
  | cons m ms ih =>
      have hm : m ∈ s.tasks := by simp [htasks]
      have hnotin : m ∉ before := by
        have hnodup := h.tasks_nodup
        rw [htasks] at hnodup
        exact fun hmem => (List.nodup_append.mp hnodup).2.2 m hmem m (by simp) rfl
      have hheld := h.setMref m (1 + 1)
      obtain ⟨out', hshown, hout', hrest⟩ :=
        h.referenced.showMonitors_next hemit hm hout
      rw [h.withMonitors_eq hm (refs_one_ne_zero m)] at hshown
      obtain ⟨n, hn⟩ := hheld.read_samples hemit h.linked hm (s.pid m) (List.append_nil _).symm hout
      have hsplit : s.tasks = (before ++ [m]) ++ ms := by simp [htasks]
      obtain ⟨n', pid', hn'⟩ := ih hsplit (s.pid m) hout'
      have hround : (Config.read emit)^[n + 1] ⟨s, .monitor m, pid, out⟩
          = ⟨s.setMref m (1 + 1), .endOfSamples m, s.pid m, out'⟩ := by
        have hsamples : (showSamples emit (s.pid m) (s.setMref m (1 + 1))
            ((s.setMref m (1 + 1)).head m).reverse out).2.1 = out' :=
          congrArg (fun result => result.2.1) hshown
        rw [Function.iterate_succ_apply, h.read_monitor hm (refs_one_ne_zero m), ← hsamples]
        exact hn
      have hleave : (Config.read emit)^[2] ⟨s.setMref m (1 + 1), .endOfSamples m, s.pid m, out'⟩
          = ⟨s, atMonitor ms.head?, s.pid m, out'⟩ := by
        have hback : (s.setMref m (1 + 1)).setMref m (1 + 1 - 1) = s := by
          rw [Int32.add_sub_cancel, ← h.mref m hm]
          exact setMref_restore s m _
        have hput : Config.read emit ⟨s.setMref m (1 + 1), .endOfSamples m, s.pid m, out'⟩
            = ⟨s, .nextMonitor m, s.pid m, out'⟩ := by
          rw [hheld.read_endOfSamples hm (by rw [Function.update_self]; decide),
            Function.update_self, hback]
        rw [Function.iterate_succ_apply, hput, Function.iterate_one, h.read_nextMonitor hm, htasks,
          listNext_append hnotin]
      refine ⟨n' + (2 + (n + 1)), pid', ?_⟩
      rw [Function.iterate_add_apply, Function.iterate_add_apply, List.head?_cons, atMonitor,
        hround, hleave, hn', hrest]

/-- **A reader that nobody interrupts** does what the show function does. -/
theorem Accounted.read_show {emit : Emit} {P : Output → Prop} (hemit : emit.Keeps P) {s : State}
    (h : Accounted s) {buf : List UInt8} (hout : P { buf := buf }) :
    ∃ n pid, (Config.read emit)^[n] (Config.start s buf)
      = ⟨s, .returned, pid, (showMonitors emit s s.tasks { buf := buf }).2.1⟩ :=
  h.read_monitors hemit (List.nil_append _).symm 0 hout

end Pnl.TaskMonitor2
