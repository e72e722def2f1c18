/-
**`kill` and the entries that nobody uses.**

`kill` looks for a pid in all entries of the table, the `UNUSED` ones included; their pid is `0`, or
that of a fork that failed. It then sets `killed` of an entry that has no process, where `allocproc`
leaves it for the next one. `kill_named_only` says when a call does this, and what holds in runs in
which no call does.
-/

import Xv6.Proc.Entry
import Xv6.Proc.Life

namespace Xv6

open Lib

/-- An entry without a process is not killed, and one with a new process only if `kill` named it. -/
def Proc.Clean (p : Proc) : Prop :=
  (p.state = .UNUSED → p.killed = false) ∧
    (p.state = .EMBRYO → p.killed = true → p.ghost.named = true)

namespace Ptable

variable {ι : Type} {s t : Ptable ι}

/-- The first entry with this pid is `UNUSED`. -/
def FirstUnused (s : Ptable ι) (pid : BitVec 32) : Prop :=
  ∃ k, (s.proc k).state = .UNUSED ∧ (s.proc k).pid = pid ∧ ∀ j < k, (s.proc j).pid ≠ pid

/-- **`kill` hits the process it names**: it returns 0 and does nothing but kill a process with the
pid, or it returns -1 and does nothing, and no entry has the pid. -/
def KillExact (s : Ptable ι) (pid : BitVec 32) : Prop :=
  (∃ i, (s.proc i).state ≠ .UNUSED ∧ (s.proc i).pid = pid ∧
    s.kill pid = (0, s.setProc i (killed (s.proc i)))) ∨
  (∀ i, (s.proc i).pid ≠ pid) ∧ s.kill pid = (-1, s)

/-- `kill` returns 0 and sets `killed` of an entry without a process. -/
def KillStray (s : Ptable ι) (pid : BitVec 32) : Prop :=
  (s.kill pid).1 = 0 ∧ ∃ k, (s.proc k).state = .UNUSED ∧
    (s.kill pid).2 = s.setProc k (killed (s.proc k))

def Clean (s : Ptable ι) : Prop := ∀ j, (s.proc j).Clean

theorem killTarget_eq_some {pid : BitVec 32} {k : Pslot} :
    s.killTarget pid = some k ↔ (s.proc k).pid = pid ∧ ∀ j < k, (s.proc j).pid ≠ pid := by
  unfold killTarget
  rw [List.find?_eq_some_iff_getElem, decide_eq_true_eq]
  refine and_congr_right fun _ => ?_
  constructor
  · rintro ⟨n, inside, at', first⟩ j below
    rw [List.getElem_finRange] at at'
    subst at'
    have before := first j.val below
    simpa using before
  · intro first
    refine ⟨k.val, by simp, by simp, fun n below => ?_⟩
    have before := first ⟨n, Nat.lt_trans below k.isLt⟩ below
    simpa using before

/-- **When a call of `kill` is exact**, in any table. -/
theorem kill_cases (s : Ptable ι) (pid : BitVec 32) :
    (s.FirstUnused pid → s.KillStray pid) ∧ (¬ s.FirstUnused pid → s.KillExact pid) := by
  unfold KillExact KillStray kill
  refine ⟨?_, fun named => ?_⟩
  · rintro ⟨k, unused, first⟩
    rw [killTarget_eq_some.mpr first]
    exact ⟨rfl, k, unused, rfl⟩
  · cases target : s.killTarget pid with
    | none =>
      refine .inr ⟨fun i => ?_, rfl⟩
      simpa using List.find?_eq_none.mp target i (List.mem_finRange i)
    | some i =>
      have first := killTarget_eq_some.mp target
      exact .inl ⟨i, fun unused => named ⟨i, unused, first⟩, first.1, rfl⟩

theorem clean_userinit : (userinit : Ptable ι).Clean := by
  intro j
  by_cases same : j = initproc
  · rw [same]
    exact ⟨fun _ => rfl, fun absurdity => nomatch absurdity⟩
  · rw [userinit_others same]
    exact ⟨fun _ => rfl, fun absurdity => nomatch absurdity⟩

variable [DecidableEq ι]

/-- **The condition on an event**: `kill` does not find an `UNUSED` entry first, and no fork fails
whose process was killed. -/
def KillOk (s : Ptable ι) : ProcEvent ι → Prop
  | .call _ (.kill pid) => ¬ s.FirstUnused pid
  | .call c .forkFail =>
    ∀ i np, s.cpu c = some i → (s.proc i).task = .forking np → (s.proc np).killed = false
  | _ => True

omit [DecidableEq ι] in
theorem Clean.kill (clean : s.Clean) {pid : BitVec 32} (named : ¬ s.FirstUnused pid) :
    ((s.kill pid).2.noteKill pid).Clean := by
  intro j
  have before := clean j
  cases target : s.killTarget pid with
  | none => grind [Proc.Clean, Ptable.kill, noteKill]
  | some k =>
    have first := killTarget_eq_some.mp target
    have live : (s.proc k).state ≠ .UNUSED := fun unused => named ⟨k, unused, first⟩
    grind [Proc.Clean, Ptable.kill, noteKill, killed]

theorem Clean.step (clean : s.Clean) (shaped : s.Shaped) {e : ProcEvent ι} (done : s.step e = .ok t)
    (ok : s.KillOk e) : t.Clean := by
  intro j
  have before := clean j
  cases shaped.changed done j with
  | kept keeps => grind [Proc.Clean, Proc.Keeps]
  | created unused entry => grind [Proc.Clean, embryo]
  | failed event current task entry => 
    subst event
    have := ok _ j current task
    grind [Proc.Clean]
  | reaped unused killed => grind [Proc.Clean]
  | killed event entry =>
    subst event
    rw [entry]
    exact clean.kill ok j
  | stored event current slot entry => grind [Proc.Clean, storeHandler]
  | replaced event current entry => grind [Proc.Clean, exec]
  | divided current entry =>
    have running := shaped.placed.current _ j current
    grind [Proc.Clean]

/-- A process that `fork` makes `RUNNABLE` was killed only if `kill` was called with its pid. -/
def ForksUnkilled (s : Ptable ι) : Prop :=
  ∀ c i np t, s.cpu c = some i → (s.proc i).task = .copied np →
    s.step (.call c .forkReturn) = .ok t → (t.proc np).state = .RUNNABLE ∧
    ((t.proc np).killed = true → (t.proc np).ghost.named = true)

theorem Clean.forksUnkilled (clean : s.Clean) (shaped : s.Shaped) : s.ForksUnkilled := by
  intro c i np t current task done
  have running := shaped.placed.current c i current
  have embryo := shaped.forks.embryo i np (by grind)
  have before := (clean np).2 embryo
  rw [Ptable.step, current] at done
  dsimp only at done
  rw [call, task] at done
  cases done
  grind [forkReturn]

/-- A call of `kill` is exact. -/
def KillsNamed (s : Ptable ι) : ProcEvent ι → Prop
  | .call _ (.kill pid) => s.KillExact pid
  | _ => True

end Ptable

/-- **When `kill` hits only the process it names.** In every table a call is exact unless the first
entry with its pid is `UNUSED`, and then it sets `killed` there and returns 0. In a run whose events
meet `KillOk`, every call of `kill` is exact, and a process that `fork` makes `RUNNABLE` is killed
only if `kill` was called with its pid since the pid was assigned. -/
theorem kill_named_only {ι : Type} [DecidableEq ι] :
    (∀ (s : Ptable ι) pid, (s.FirstUnused pid → s.KillStray pid) ∧
      (¬ s.FirstUnused pid → s.KillExact pid)) ∧
    ∀ es : List (ProcEvent ι), EachStep Ptable.step Ptable.KillOk Ptable.userinit es →
      EachStep Ptable.step Ptable.KillsNamed Ptable.userinit es ∧
        Always Ptable.step Ptable.ForksUnkilled Ptable.userinit es := by
  refine ⟨Ptable.kill_cases, fun es ok => ⟨fun before e after m t split run taken => ?_, ?_⟩⟩
  · have allowed := ok before e after m t split run taken
    unfold Ptable.KillsNamed
    split
    · exact (Ptable.kill_cases m _).2 allowed
    · trivial
  · refine ok.always (fun _ (inv : Ptable.Shaped _ ∧ Ptable.Clean _) => inv.2.forksUnkilled inv.1)
      ?_ ⟨Ptable.shaped_userinit, Ptable.clean_userinit⟩
    rintro s e t ⟨shaped, clean⟩ done ok
    exact ⟨shaped.step done, clean.step shaped done ok⟩

/-- Init forks and kills the child. -/
def killChild : List (ProcEvent (Fin 1)) :=
  [.scheduler 0 initproc, .call 0 .fork, .call 0 .forkCopy, .call 0 .forkReturn, .call 0 (.kill 2)]

/-- The child is killed by the call that names it. -/
theorem kill_named_only_child :
    (∃ s, killChild.foldlM Ptable.step Ptable.userinit = .ok s ∧
      (s.proc ⟨1, by decide⟩).pid = 2 ∧ (s.proc ⟨1, by decide⟩).killed = true) ∧
      EachStep Ptable.step Ptable.KillsNamed Ptable.userinit killChild := by
  refine ⟨⟨_, rfl, rfl, rfl⟩, (kill_named_only.2 killChild ?_).1⟩
  iterate 4
    refine eachStep_cons.mpr fun _ taken => ⟨trivial, ?_⟩
    cases taken
  refine eachStep_cons.mpr fun _ _ => ⟨?_, eachStep_nil⟩
  rintro ⟨k, unused, first⟩
  cases (Ptable.killTarget_eq_some.mpr first).symm.trans
    (show _ = some (⟨1, by decide⟩ : Pslot) from rfl)
  cases unused

/-- Init kills pid 0 and forks. -/
def killZero : List (ProcEvent (Fin 1)) :=
  [.scheduler 0 initproc, .call 0 (.kill 0), .call 0 .fork, .call 0 .forkCopy, .call 0 .forkReturn]

/-- **`kill(0)` kills the next child.** It returns 0 although no process has pid 0, and the process
that the next `fork` makes is killed from the start, although `kill` was never called with its
pid. -/
theorem kill_zero_kills_next_child :
    ((Ptable.userinit.scheduler (0 : Fin 1) initproc).kill 0).1 = 0 ∧
      ¬ (Ptable.userinit.scheduler (0 : Fin 1) initproc).KillExact 0 ∧
      ∃ s, killZero.foldlM Ptable.step Ptable.userinit = .ok s ∧
        (s.proc ⟨1, by decide⟩).state = .RUNNABLE ∧ (s.proc ⟨1, by decide⟩).pid = 2 ∧
        (s.proc ⟨1, by decide⟩).killed = true ∧ (s.proc ⟨1, by decide⟩).ghost.named = false := by
  refine ⟨rfl, ?_, _, rfl, rfl, rfl, rfl, rfl⟩
  rintro (⟨i, live, pid, -⟩ | ⟨_, fails⟩)
  · by_cases same : i = initproc
    · rw [same] at pid
      cases pid
    · rw [Ptable.scheduler_proc, if_neg same, Ptable.userinit_others same] at live
      exact live rfl
  · exact absurd (congrArg Prod.fst fails) (show (0 : Int) ≠ -1 by decide)

end Xv6
