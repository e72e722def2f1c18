/-
**The life cycle of a process.**

Every event is a sequence of moves, so the facts that moves keep hold in every state a run reaches;
those about pids as long as pids do not wrap around. `life_cycle` reads the result off.
-/

import Xv6.Proc.History

namespace Xv6

open Lib

namespace Ptable

variable {ι : Type} {s t : Ptable ι} [DecidableEq ι] {es : List (ProcEvent ι)}

theorem Move.created_le (m : s.Move t) : s.created ≤ t.created := by
  cases m with
  | nudge n => exact Nat.le_of_eq n.created.symm
  | create => exact Nat.le_succ _
  | _ => exact Nat.le_refl _

/-- The pids and the history are in order. -/
structure Told (s : Ptable ι) : Prop where
  numbered : s.Numbered
  recorded : s.Recorded

theorem Told.moves (shaped : s.Shaped) (told : s.created < 2 ^ 31 → s.Told) (m : s.Moves t) :
    t.created < 2 ^ 31 → t.Told := by
  induction m with
  | refl => exact told
  | @tail u v first last ih =>
    intro small
    have before := ih (Nat.lt_of_le_of_lt last.created_le small)
    have family := (shaped.moves first).family
    exact ⟨before.numbered.move family last small,
      before.recorded.move family before.numbered last small⟩

omit [DecidableEq ι] in
theorem told_userinit : (userinit : Ptable ι).Told := by
  have others := fun j => @userinit_others ι j
  have init : ((userinit : Ptable ι).proc initproc).state = .RUNNABLE := rfl
  have parent : ((userinit : Ptable ι).proc initproc).parent = none := rfl
  have history : (userinit : Ptable ι).history = [] := rfl
  refine ⟨⟨rfl, ?_, ?_, rfl⟩, ⟨?_, ?_, ?_, ?_, ?_⟩⟩
  · intro i live
    by_cases same : i = initproc
    · rw [same]
      exact Nat.le_refl 1
    · rw [others i same] at live
      exact absurd rfl live
  · grind [Proc.zero]
  · grind [Proc.zero]
  · grind [Proc.zero]
  · grind
  · grind
  · intro later parent child earlier split
    cases later <;> cases split

theorem shaped_run (run : es.foldlM step userinit = .ok s) : s.Shaped :=
  run_invariant (fun _ s => s.Shaped) shaped_userinit (fun _ _ _ _ shaped done => shaped.step done)
    es s run

theorem told_run (run : es.foldlM step userinit = .ok s) (small : s.created < 2 ^ 31) : s.Told := by
  have both := run_invariant (fun _ s => s.Shaped ∧ (s.created < 2 ^ 31 → s.Told))
    ⟨shaped_userinit, fun _ => told_userinit⟩ ?_ es s run
  · exact both.2 small
  · rintro _ s e t ⟨shaped, told⟩ done
    exact ⟨shaped.step done, Told.moves shaped told (shaped.moves_step done)⟩

end Ptable

/-- **The life cycle of a process.** In every state that a run reaches with fewer than `2 ^ 31`
processes created: the pids of the processes are distinct, the parent of every process but init has
not exited, a `RUNNING` process is the current process of one CPU, and every pid that `wait`
returned it returned once, to the parent, after the process had exited. -/
theorem life_cycle {ι : Type} [DecidableEq ι] {es : List (ProcEvent ι)} {s : Ptable ι}
    (run : es.foldlM Ptable.step Ptable.userinit = .ok s) (few : s.created < 2 ^ 31) :
    (∀ i j, (s.proc i).state ≠ .UNUSED → (s.proc j).state ≠ .UNUSED →
        (s.proc i).pid = (s.proc j).pid → i = j) ∧
      (∀ i, i ≠ initproc → (s.proc i).state ∈ [.RUNNABLE, .RUNNING, .SLEEPING, .ZOMBIE] →
        ∃ q, (s.proc i).parent = some q ∧ (s.proc q).state ≠ .UNUSED ∧ (s.proc q).state ≠ .ZOMBIE) ∧
      (∀ i, (s.proc i).state = .RUNNING → ∃! c, s.cpu c = some i) ∧ WaitsOnce s.history := by
  have shaped := Ptable.shaped_run run
  have placed := shaped.placed
  have family := shaped.family
  obtain ⟨numbered, recorded⟩ := Ptable.told_run run few
  refine ⟨numbered.distinct, ?_, ?_, recorded.waits⟩
  · intro i other state
    cases parent : (s.proc i).parent with
    | none => exact absurd parent (family.child i (by grind) (by grind) other)
    | some q =>
      have active := family.parent i q parent
      exact ⟨q, rfl, by grind, by grind⟩
  · intro i running
    obtain ⟨c, at'⟩ := placed.running i running
    exact ⟨c, at', fun d there => placed.alone d c i there at'⟩

/-- Init forks a child on one of two CPUs and waits for it; the child exits. -/
def forkAndWait : List (ProcEvent (Fin 2)) :=
  [.scheduler 0 initproc, .call 0 .fork, .call 0 .forkCopy, .call 0 .forkReturn, .call 0 .wait,
    .scheduler 1 ⟨1, one_lt_NPROC⟩, .call 1 .exit, .scheduler 0 initproc, .call 0 .wait]

theorem life_cycle_fork_and_wait : ∃ s, forkAndWait.foldlM Ptable.step Ptable.userinit = .ok s ∧
    s.history = [.waited 1 2, .exited 2, .forked 1 2] ∧ WaitsOnce s.history :=
  have run : forkAndWait.foldlM Ptable.step Ptable.userinit = .ok _ := rfl
  ⟨_, run, rfl, (life_cycle run (by decide)).2.2.2⟩

end Xv6
