/-
**Wakeups on pipes.**

A reader sleeps while the pipe is empty, a writer while it is full, and whoever changes that calls
`wakeup`, with one exception: a `pipewrite` that gives up before its end, because its process was
killed or nobody reads any more, returns without a wakeup although it may have stored bytes.
-/

import Xv6.Sync.PipeStream

namespace Xv6

open Lib Function

namespace PipeSys

variable {ι : Type}

/-- **Readers sleep only at an empty pipe, writers only at a full one.** -/
structure Awake (s : PipeSys ι) : Prop where
  readers : ∀ i, (s.proc i).SleepsOn s.nread → s.pipe.nread = s.pipe.nwrite ∧
    s.pipe.writeopen = true
  writers : ∀ i, (s.proc i).SleepsOn s.nwrite → s.pipe.nwrite = s.pipe.nread + 512 ∧
    s.pipe.readopen = true

/-- Process `i`, with `left` bytes to write, does not get to the end and does not sleep either. -/
def GivesUp (s : PipeSys ι) (i : ι) (left : Nat) : Prop :=
  PIPESIZE - s.pipe.count < left ∧ (s.pipe.readopen = false ∨ (s.proc i).killed = true)

/-- A writer gives up only while no reader sleeps. -/
def Careful (s : PipeSys ι) : PipeEvent ι → Prop
  | .write i _ n => s.GivesUp i n.toNat → ∀ j, ¬ (s.proc j).SleepsOn s.nread
  | .resume i =>
    match s.call i with
    | .write _ _ n j => s.GivesUp i (n.toNat - j) → ∀ j, ¬ (s.proc j).SleepsOn s.nread
    | _ => True
  | _ => True

variable {s t : PipeSys ι} {i j : ι} {chan other : Chan}

theorem nread_ne_nwrite (s : PipeSys ι) : s.nread ≠ s.nwrite := by
  intro same
  have : s.page + 564 = s.page + 568 := Chan.other.inj same
  bv_omega

theorem not_sleeps_wakeup : ¬ ((s.wakeup chan).proc j).SleepsOn chan := by
  rintro ⟨sleeping, on'⟩
  change (Ptable.wake (some chan) (s.proc j)).state = _ at sleeping
  change (Ptable.wake (some chan) (s.proc j)).chan = _ at on'
  unfold Ptable.wake at sleeping on'
  split at sleeping
  · cases sleeping
  · next awake =>
    rw [if_neg awake] at on'
    exact awake ⟨sleeping, on'⟩

theorem sleeps_of_wakeup (sleeps : ((s.wakeup other).proc j).SleepsOn chan) :
    (s.proc j).SleepsOn chan := by
  obtain ⟨sleeping, on'⟩ := sleeps
  change (Ptable.wake (some other) (s.proc j)).state = _ at sleeping
  change (Ptable.wake (some other) (s.proc j)).chan = _ at on'
  unfold Ptable.wake at sleeping on'
  split at sleeping
  · cases sleeping
  · next awake =>
    rw [if_neg awake] at on'
    exact ⟨sleeping, on'⟩

variable [DecidableEq ι]

theorem sleeps_of_sleep (sleeps : ((s.sleep i other).proc j).SleepsOn chan) :
    chan = other ∨ (s.proc j).SleepsOn chan := by
  by_cases mine : j = i
  · subst mine
    left
    have on' := sleeps.2
    change (update s.proc j _ j).chan = _ at on'
    rw [update_self] at on'
    exact (Option.some.inj on').symm
  · right
    unfold sleep setProc at *
    dsimp only at sleeps
    rw [update_of_ne mine] at sleeps
    exact sleeps

theorem Awake.setProc (awake : s.Awake) {p : Proc} (up : p.state ≠ .SLEEPING) :
    (s.setProc i p).Awake := by
  have before : ∀ chan j, ((s.setProc i p).proc j).SleepsOn chan → (s.proc j).SleepsOn chan :=
    fun chan =>
    (forall_update_iff s.proc fun j p => p.state = .SLEEPING ∧ p.chan = some chan →
      (s.proc j).SleepsOn chan).mpr
      ⟨fun sleeps => absurd sleeps.1 up, fun _ _ sleeps => sleeps⟩
  exact ⟨fun j sleeps => awake.readers j (before _ j sleeps),
    fun j sleeps => awake.writers j (before _ j sleeps)⟩

omit [DecidableEq ι] in
theorem Awake.pipeclose (awake : s.Awake) (writable : Bool) : (s.pipeclose writable).Awake := by
  unfold PipeSys.pipeclose
  split
  · exact ⟨fun j sleeps => absurd sleeps not_sleeps_wakeup,
      fun j sleeps => awake.writers j (sleeps_of_wakeup sleeps)⟩
  · exact ⟨fun j sleeps => awake.readers j (sleeps_of_wakeup sleeps),
      fun j sleeps => absurd sleeps not_sleeps_wakeup⟩

/-- **A stretch of `piperead`**: readers sleep on if it sleeps, and no writer does if it takes
bytes. -/
theorem Awake.piperead (awake : s.Awake) (i : ι) (n : Int) : (s.piperead i n).Awake := by
  unfold PipeSys.piperead
  split
  · next empty =>
    split
    · exact ⟨awake.readers, awake.writers⟩
    · refine ⟨fun j _ => empty, fun j sleeps => ?_⟩
      rcases sleeps_of_sleep sleeps with same | sleeps
      · exact absurd same.symm s.nread_ne_nwrite
      · exact awake.writers j sleeps
  · next bytes =>
    refine ⟨fun j sleeps => ?_, fun j sleeps => ?_⟩
    · exact absurd (awake.readers j (sleeps_of_wakeup sleeps)) bytes
    · exact absurd sleeps not_sleeps_wakeup

/-- **A stretch of `pipewrite`** is right about wakeups exactly if it does not give up while a
reader sleeps. -/
theorem Awake.pipewrite (awake : s.Awake) (fits : s.pipe.count ≤ PIPESIZE) (i : ι) (id : Nat)
    (addr : Nat → UInt8) (n : Int) {j : Nat} (inside : j ≤ n.toNat) :
    (s.pipewrite i id addr n j).Awake ↔
    (s.GivesUp i (n.toNat - j) → ∀ j, ¬ (s.proc j).SleepsOn s.nread) := by
  obtain ⟨stop, _, ends⟩ := Pipe.fill_spec addr j (n.toNat - j) fits
  have count := Pipe.count_fill addr j (n.toNat - j) fits
  unfold PipeSys.pipewrite
  cases filled : s.pipe.fill addr j (n.toNat - j) with
  | mk k pipe =>
    rw [filled] at stop ends count
    dsimp only at stop ends count ⊢
    -- Who sleeps at a full pipe still does: nothing was stored.
    have writers : ∀ i, (s.proc i).SleepsOn s.nwrite → pipe.nwrite = pipe.nread + 512 ∧
      pipe.readopen = true := by
      intro i sleeps
      obtain ⟨full, reads⟩ := awake.writers i sleeps
      rw [Pipe.full_iff] at full ⊢
      exact ⟨by omega, ends.readopen.trans reads⟩
    by_cases early : k < n.toNat
    · have full : pipe.count = PIPESIZE := by omega
      rw [if_pos early]
      by_cases leaves : (s.storing id addr j k pipe).pipe.readopen = false ∨
          ((s.storing id addr j k pipe).proc i).killed = true
      · rw [if_pos leaves]
        constructor
        · intro after _ j sleeps
          have empty := Pipe.empty_iff.mp (after.readers j sleeps).1
          exact absurd (empty.symm.trans full) (by decide)
        · intro careful
          refine ⟨fun j sleeps => ?_, writers⟩
          exact absurd sleeps (careful ⟨by omega, ends.readopen ▸ leaves⟩ j)
      · rw [if_neg leaves]
        refine iff_of_true ⟨fun j sleeps => ?_, fun j _ => ?_⟩ fun gives => ?_
        · rcases sleeps_of_sleep sleeps with same | sleeps
          · exact absurd same s.nread_ne_nwrite
          · exact absurd sleeps not_sleeps_wakeup
        · refine ⟨Pipe.full_iff.mpr full, ?_⟩
          exact Bool.not_eq_false _ ▸ fun closed => leaves (.inl closed)
        · exact absurd (ends.readopen ▸ gives.2) leaves
    · rw [if_neg early]
      refine iff_of_true ⟨fun j sleeps => absurd sleeps not_sleeps_wakeup, fun j sleeps => ?_⟩
        fun gives => ?_
      · exact writers j (sleeps_of_wakeup sleeps)
      · have := gives.1
        omega

theorem Awake.step_iff {e : PipeEvent ι} (awake : s.Awake) (stream : s.Stream)
    (done : s.step e = .ok t) : t.Awake ↔ s.Careful e := by
  cases step_cases done with
  | read i n event =>
    refine iff_of_true (awake.piperead i n) ?_
    rcases event with rfl | ⟨rfl, here⟩
    · trivial
    · simp only [Careful, here]
  | write i addr n =>
    have begun : { s with calls := s.calls + 1 }.Awake := ⟨awake.readers, awake.writers⟩
    exact begun.pipewrite stream.fits i s.calls addr n (Nat.zero_le _)
  | resume i id addr n j here =>
    rw [awake.pipewrite stream.fits i id addr n (stream.pending i id addr n j here).inside]
    simp only [Careful, here]
  | close i writable => exact iff_of_true (awake.pipeclose writable) trivial
  | proc i p event up =>
    refine iff_of_true (awake.setProc up) ?_
    rcases event with rfl | rfl | rfl <;> trivial

omit [DecidableEq ι] in
theorem Start.awake' (start : s.Start) : s.Awake :=
  ⟨fun i sleeps => absurd sleeps.2 (start.awake i sleeps.1).1,
    fun i sleeps => absurd sleeps.2 (start.awake i sleeps.1).2⟩

end PipeSys

/-- **No lost wakeup on pipes**, but by writers that give up: in a run, readers sleep only at an
empty pipe and writers only at a full one exactly if no writer gives up while a reader sleeps. -/
theorem pipe_wakeup_iff {ι : Type} [DecidableEq ι] {s : PipeSys ι} (start : s.Start)
    (es : List (PipeEvent ι)) :
    Always PipeSys.step PipeSys.Awake s es ↔ EachStep PipeSys.step PipeSys.Careful s es := by
  have exact' : ∀ (s : PipeSys ι) e t, s.Stream ∧ s.Awake → s.step e = .ok t →
      (s.Careful e → t.Stream ∧ t.Awake) ∧ (¬ s.Careful e → ¬ t.Awake) := by
    rintro s e t ⟨stream, awake⟩ done
    have same := awake.step_iff stream done
    exact ⟨fun careful => ⟨stream.step done, same.mpr careful⟩, fun careless => mt same.mp careless⟩
  exact always_iff_eachStep (fun s inv => inv.2) exact' ⟨start.stream, start.awake'⟩

/-- The reader comes back to an empty pipe before the writer, which is killed meanwhile, fills it
again. -/
def lostWakeup : List (PipeEvent (Fin 2)) :=
  [.write 1 (fun _ => 0) 1025, .read 0 512, .read 0 512, .kill 1, .scheduler 1, .resume 1]

/-- Nobody gives up here. -/
theorem pipe_wakeup_close :
    Always PipeSys.step PipeSys.Awake (newPipe (Fin 2)) [.read 0 1, .close 1 true] := by
  refine (pipe_wakeup_iff (start_newPipe _) _).mpr fun before e after m t split _ _ => ?_
  have member : e ∈ [PipeEvent.read 0 1, .close 1 true] := by
    rw [split]
    exact List.mem_append_right _ List.mem_cons_self
  simp only [List.mem_cons, List.not_mem_nil, or_false] at member
  rcases member with rfl | rfl <;> trivial

set_option maxRecDepth 100000 in
/-- The reader sleeps on although there are `512` bytes in the pipe. -/
theorem pipe_wakeup_lost : ∃ t, lostWakeup.foldlM PipeSys.step (newPipe (Fin 2)) = .ok t ∧
    (t.proc 0).state = .SLEEPING ∧ (t.proc 0).chan = some t.nread ∧
    t.pipe.nread ≠ t.pipe.nwrite := by
  obtain ⟨t, run, asleep⟩ :=
    exists_of_endsIn (x := lostWakeup.foldlM PipeSys.step (newPipe (Fin 2)))
    (P := fun t => decide ((t.proc 0).state = .SLEEPING ∧ (t.proc 0).chan = some t.nread ∧
      t.pipe.nread ≠ t.pipe.nwrite)) (by decide +kernel)
  exact ⟨t, run, of_decide_eq_true asleep⟩

end Xv6
