/-
**A parent never sleeps past a dead child.**

A process that sleeps in `wait` has no child that exited: `wait` looks for one before it sleeps, in
one critical section, and `exit` wakes the parent, and init if it inherits a child that exited, in
the critical section in which the child becomes a `ZOMBIE`.
-/

import Xv6.Proc.Family

namespace Xv6

open Lib

/-- Only `wait` sleeps on a process. -/
def ProcEvent.Proper {ι : Type} : ProcEvent ι → Prop
  | .call _ (.sleep (.proc _)) => False
  | _ => True

namespace Ptable

variable {ι : Type} {s t : Ptable ι}

/-- **Whoever sleeps in `wait` has no child that exited.** -/
structure Attended (s : Ptable ι) : Prop where
  awake : ∀ i z, (s.proc i).state = .SLEEPING → (s.proc i).chan = some (.proc i) →
    (s.proc z).parent = some i → (s.proc z).state ≠ .ZOMBIE
  init : (s.proc initproc).parent = none
  other : ∀ i, (s.proc i).parent ≠ some i

theorem zombieChild_eq_none {i z : Pslot} (none' : s.zombieChild i = none)
    (child : (s.proc z).parent = some i) : (s.proc z).state ≠ .ZOMBIE := by
  intro zombie
  have := List.find?_eq_none.mp none' z (List.mem_finRange z)
  simp [child, zombie] at this

@[grind →] theorem wake_sleeping {chan : Option Chan} {p : Proc}
    (sleeping : (wake chan p).state = .SLEEPING) : p.state = .SLEEPING ∧ p.chan ≠ chan := by
  grind [wake]

theorem Attended.quiet (attended : s.Attended) (parent : ∀ j, (t.proc j).parent = (s.proc j).parent)
    (exits : ∀ j, (t.proc j).state = .ZOMBIE → (s.proc j).state = .ZOMBIE)
    (sleeps : ∀ j, (t.proc j).state = .SLEEPING → (t.proc j).chan = some (.proc j) →
      (s.proc j).state = .SLEEPING ∧ (s.proc j).chan = some (.proc j)) : t.Attended where
  awake i z sleeping chan child zombie := by
    obtain ⟨sleeping', chan'⟩ := sleeps i sleeping chan
    exact attended.awake i z sleeping' chan' ((parent z).symm.trans child) (exits z zombie)
  init := (parent initproc).trans attended.init
  other i self := attended.other i ((parent i).symm.trans self)

theorem attended_userinit : (userinit : Ptable ι).Attended := by
  have others := fun j => @userinit_others ι j
  have init : ((userinit : Ptable ι).proc initproc).state = .RUNNABLE := rfl
  have parent : ((userinit : Ptable ι).proc initproc).parent = none := rfl
  constructor <;> grind [Proc.zero]

variable [DecidableEq ι]

/-- **`exit`** wakes the parent, and init if it inherits a child that exited. -/
theorem Attended.exit (attended : s.Attended) {i : Pslot} (c : ι)
    (running : (s.proc i).state = .RUNNING) (notInit : i ≠ initproc) : (s.exit c i).Attended := by
  obtain ⟨awake, init, other⟩ := attended
  have proc : ∀ j, ((s.exit c i).proc j).parent =
      (if (s.proc j).parent = some i then some initproc else (s.proc j).parent) ∧
      ((s.exit c i).proc j).chan = (s.proc j).chan ∧
      (((s.exit c i).proc j).state = .ZOMBIE → j = i ∨ (s.proc j).state = .ZOMBIE) ∧
      (((s.exit c i).proc j).state = .SLEEPING → (s.proc j).state = .SLEEPING ∧
        (s.proc j).chan ≠ (s.proc i).parent.map .proc ∧
        ((s.zombieChild i).isSome = true → (s.proc j).chan ≠ some (.proc initproc))) := by
    intro j
    rw [Ptable.exit]
    dsimp only
    split
    all_goals refine ⟨by grind [wake], by grind [wake], by grind [wake], fun sleeping => ?_⟩
    · have twice :
          (wake (some (.proc initproc)) (wake ((s.proc i).parent.map .proc) (s.proc j))).state =
            .SLEEPING := by grind
      have later := wake_sleeping twice
      grind [wake]
    · have once : (wake ((s.proc i).parent.map .proc) (s.proc j)).state = .SLEEPING := by grind
      grind
  refine ⟨?_, ?_, ?_⟩
  · intro q z sleeping chan child zombie
    obtain ⟨parent, -, exited, -⟩ := proc z
    obtain ⟨-, chan', -, slept⟩ := proc q
    obtain ⟨sleeping', notParent, notInit'⟩ := slept sleeping
    rw [chan'] at chan
    rw [parent] at child
    rcases exited zombie with rfl | dead
    · rw [if_neg (other z)] at child
      exact notParent (by rw [chan, child]; rfl)
    · by_cases mine : (s.proc z).parent = some i
      · rw [if_pos mine] at child
        cases child
        refine notInit' ?_ chan
        cases none' : s.zombieChild i with
        | some _ => rfl
        | none => exact absurd dead (zombieChild_eq_none none' mine)
      · rw [if_neg mine] at child
        exact awake q z sleeping' chan child dead
  · rw [(proc initproc).1, init]
    rfl
  · intro j self
    rw [(proc j).1] at self
    split at self
    next mine =>
      cases self
      rw [init] at mine
      cases mine
    next => exact other j self

theorem Attended.wait (attended : s.Attended) (c : ι) (i : Pslot) : (s.wait c i).Attended := by
  unfold Ptable.wait
  split
  next z found =>
    obtain ⟨awake, init, other⟩ := attended
    constructor <;> grind [reap]
  next none' =>
    dsimp only
    split
    next =>
      refine attended.quiet ?_ ?_ ?_ <;> grind
    next =>
      have alive := fun z => @zombieChild_eq_none ι s i z none'
      obtain ⟨awake, init, other⟩ := attended
      constructor <;> grind [Ptable.sleep]

theorem Attended.call (attended : s.Attended) (shaped : s.Shaped) {c : ι} {i : Pslot} {op : ProcOp}
    (current : s.cpu c = some i) (proper : (ProcEvent.call c op).Proper)
    (done : s.call c i op = .ok t) : t.Attended := by
  have running := shaped.placed.current c i current
  cases op with
  | fork =>
    obtain ⟨user, done⟩ := begin_eq_ok.mp done
    cases done
    rw [Ptable.fork]
    cases found : s.unusedProc with
    | none => exact attended
    | some np => refine attended.quiet ?_ ?_ ?_ <;> grind [embryo]
  | forkFail =>
    rw [Ptable.call] at done
    split at done <;> cases done
    refine attended.quiet ?_ ?_ ?_ <;> grind [forkFail]
  | forkCopy =>
    rw [Ptable.call] at done
    split at done <;> cases done
    next np task =>
      -- The new child is an `EMBRYO`.
      have embryo := shaped.forks.embryo i np (by grind)
      have active := shaped.family.init
      obtain ⟨awake, init, other⟩ := attended
      constructor <;> grind [forkCopy]
  | forkReturn =>
    rw [Ptable.call] at done
    split at done <;> cases done
    refine attended.quiet ?_ ?_ ?_ <;> grind [forkReturn]
  | exit =>
    obtain ⟨user, done⟩ := begin_eq_ok.mp done
    split at done <;> cases done
    next notInit => exact attended.exit c running notInit
  | wait =>
    rw [Ptable.call] at done
    split at done
    · cases done
      exact attended.wait c i
    · obtain ⟨user, done⟩ := begin_eq_ok.mp done
      cases done
      exact attended.wait c i
  | yield =>
    cases done
    refine attended.quiet ?_ ?_ ?_ <;> grind [Ptable.yield]
  | sleep chan =>
    cases done
    cases chan with
    | proc => exact proper.elim
    | other addr => refine attended.quiet ?_ ?_ ?_ <;> grind [Ptable.sleep]
  | kill pid =>
    obtain ⟨user, done⟩ := begin_eq_ok.mp done
    cases done
    refine attended.quiet ?_ ?_ ?_ <;> grind [Ptable.kill, noteKill, killed]
  | signal signum handler =>
    obtain ⟨user, done⟩ := begin_eq_ok.mp done
    unfold sysSignal at done
    split at done
    · cases done
      refine attended.quiet ?_ ?_ ?_ <;> grind [storeHandler]
    · split at done <;> cases done
      refine attended.quiet ?_ ?_ ?_ <;> grind [storeHandler]
  | exec =>
    obtain ⟨user, done⟩ := begin_eq_ok.mp done
    cases done
    refine attended.quiet ?_ ?_ ?_ <;> grind [Ptable.exec]
  | divide =>
    obtain ⟨user, done⟩ := begin_eq_ok.mp done
    cases done
    refine attended.quiet ?_ ?_ ?_ <;> grind [Ptable.divide]

theorem Attended.step (attended : s.Attended) (shaped : s.Shaped) {e : ProcEvent ι}
    (proper : e.Proper) (done : s.step e = .ok t) : t.Attended := by
  cases e with
  | scheduler c i =>
    rw [Ptable.step] at done
    split at done <;> cases done
    refine attended.quiet ?_ ?_ ?_ <;> grind [resumed]
  | wakeup chan =>
    cases done
    refine attended.quiet ?_ ?_ ?_ <;> grind [wake]
  | call c op =>
    rw [Ptable.step] at done
    cases current : s.cpu c with
    | none =>
      rw [current] at done
      cases done
    | some i =>
      rw [current] at done
      exact attended.call shaped current proper done

end Ptable

/-- **A parent never sleeps past a dead child**, in any state that a run reaches. -/
theorem wait_no_zombie {ι : Type} [DecidableEq ι] {es : List (ProcEvent ι)} {s : Ptable ι}
    (proper : ∀ e ∈ es, e.Proper) (run : es.foldlM Ptable.step Ptable.userinit = .ok s)
    {i z : Pslot} (sleeping : (s.proc i).state = .SLEEPING)
    (waiting : (s.proc i).chan = some (.proc i)) (child : (s.proc z).parent = some i) :
    (s.proc z).state ≠ .ZOMBIE := by
  have inv := run_invariant (fun es s => (∀ e ∈ es, e.Proper) → s.Shaped ∧ s.Attended)
    (fun _ => ⟨Ptable.shaped_userinit, Ptable.attended_userinit⟩) ?_ es s run proper
  · exact inv.2.awake i z sleeping waiting child
  · intro es s e t inv done proper
    obtain ⟨shaped, attended⟩ := inv fun e' member => proper e' (List.mem_append_left _ member)
    have last : e.Proper := proper e (List.mem_append_right _ List.mem_cons_self)
    exact ⟨shaped.step done, attended.step shaped last done⟩

/-- Init forks a child and waits for it. -/
def forkThenWait : List (ProcEvent (Fin 1)) :=
  [.scheduler 0 initproc, .call 0 .fork, .call 0 .forkCopy, .call 0 .forkReturn, .call 0 .wait]

/-- The child has not exited yet. -/
theorem wait_no_zombie_runnable : ∃ s, forkThenWait.foldlM Ptable.step Ptable.userinit = .ok s ∧
    (s.proc initproc).state = .SLEEPING ∧ (s.proc ⟨1, by decide⟩).state ≠ .ZOMBIE :=
  have run : forkThenWait.foldlM Ptable.step Ptable.userinit = .ok _ := rfl
  have proper : ∀ e ∈ forkThenWait, e.Proper := by simp [forkThenWait, ProcEvent.Proper]
  ⟨_, run, rfl, wait_no_zombie proper run (i := initproc) rfl rfl rfl⟩

end Xv6
