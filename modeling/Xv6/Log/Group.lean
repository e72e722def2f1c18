/-
**Group commit: processes that share one transaction.**

Any number of processes run operations `begin_op … log_write … end_op`; the last one to leave runs
`commit()` outside the lock. The state is the log together with where each process stands (`Pc`),
and a run is any list of events, that is any interleaving. `commit()` itself is seven steps
(`CommitPc`), and other processes may step between them.
-/

import Xv6.Lib.Run
import Xv6.Log.Basic

namespace Xv6

open Lib Function

/-- Where `commit()` stands: before its test of `n`, and before each of its statements; `finish` is
the critical section of `end_op` behind the call. -/
inductive CommitPc
  | entry
  | writeLog
  | writeHead
  | installTrans
  | clear
  | eraseHead
  | finish
  deriving DecidableEq

/-- Where a process stands. `asleep` and `woken` are inside the loop of `begin_op`. -/
inductive Pc
  | idle
  | asleep
  | woken
  | inOp
  | commit (c : CommitPc)
  deriving DecidableEq

/-- What a process does next. -/
inductive Act
  | beginOp
  | logWrite (sector : UInt32)
  | endOp
  | commitStep
  | commitDone
  deriving DecidableEq

/-- A process number and its step. -/
abbrev Event := Nat × Act

/-- The log and where every process stands. -/
structure Sys where
  log : Log
  pc : Nat → Pc

/-- Why a step did not happen: the process is not at that point of its program, or it panicked. -/
inductive Fault
  | notEnabled
  | panic (p : Panic)
  deriving DecidableEq

namespace Sys

/-- After `initlog`, before any system call. -/
def init (size nlog : Nat) : Sys := ⟨Log.init size nlog, fun _ => .idle⟩

/-- `wakeup(&log)`. -/
def wakeup (pc : Nat → Pc) : Nat → Pc := fun q => if pc q = .asleep then .woken else pc q

/-- One statement of `commit()`; only `log.lh.n = 0` changes the log in memory. -/
def commitNext (log : Log) : CommitPc → Option (CommitPc × Log)
  | .entry => if log.lh.n > 0 then some (.writeLog, log) else some (.finish, log)
  | .writeLog => some (.writeHead, log)
  | .writeHead => some (.installTrans, log)
  | .installTrans => some (.clear, log)
  | .clear => some (.eraseHead, { log with lh := LogHeader.empty })
  | .eraseHead => some (.finish, log)
  | .finish => none

/-- One step of one process. -/
def exec (s : Sys) : Event → Except Fault Sys
  | (p, .beginOp) =>
    if s.pc p = .idle ∨ s.pc p = .woken then
      match s.log.beginOp with
      | none => .ok { s with pc := update s.pc p .asleep }
      | some log => .ok ⟨log, update s.pc p .inOp⟩
    else .error .notEnabled
  | (p, .logWrite sector) =>
    if s.pc p = .inOp then
      match s.log.write sector with
      | .error panic => .error (.panic panic)
      | .ok log => .ok { s with log }
    else .error .notEnabled
  | (p, .endOp) =>
    if s.pc p = .inOp then
      match s.log.endOp with
      | .error panic => .error (.panic panic)
      | .ok (true, log) => .ok ⟨log, update s.pc p (.commit .entry)⟩
      | .ok (false, log) => .ok ⟨log, update (wakeup s.pc) p .idle⟩
    else .error .notEnabled
  | (p, .commitStep) =>
    match s.pc p with
    | .commit c =>
      match commitNext s.log c with
      | some (next, log) => .ok ⟨log, update s.pc p (.commit next)⟩
      | none => .error .notEnabled
    | _ => .error .notEnabled
  | (p, .commitDone) =>
    if s.pc p = .commit .finish then
      .ok ⟨{ s.log with committing := false }, update (wakeup s.pc) p .idle⟩
    else .error .notEnabled

/-- **What a step can do.** -/
inductive Step (s : Sys) : Event → Sys → Prop
  | slept (p : Nat) (ready : s.pc p = .idle ∨ s.pc p = .woken) (refused : s.log.beginOp = none) :
      Step s (p, .beginOp) { s with pc := update s.pc p .asleep }
  | admitted (p : Nat) (ready : s.pc p = .idle ∨ s.pc p = .woken)
      (quiet : s.log.committing = false)
      (room : s.log.lh.n + (s.log.outstanding + 1) * MAXOPBLOCKS ≤ LOGSIZE) :
      Step s (p, .beginOp)
        ⟨{ s.log with outstanding := s.log.outstanding + 1 }, update s.pc p .inOp⟩
  | logged (p : Nat) (sector : UInt32) (inside : s.pc p = .inOp)
      (room : s.log.lh.n < s.log.capacity) (fits : s.log.lh.n < LOGSIZE) :
      Step s (p, .logWrite sector)
        { s with log := { s.log with lh := s.log.lh.absorb sector fits } }
  | lastEnded (p : Nat) (inside : s.pc p = .inOp) (quiet : s.log.committing = false)
      (last : s.log.outstanding = 1) :
      Step s (p, .endOp)
        ⟨{ s.log with outstanding := 0, committing := true },
          update s.pc p (.commit .entry)⟩
  | ended (p : Nat) (inside : s.pc p = .inOp) (quiet : s.log.committing = false)
      (others : s.log.outstanding ≠ 1) :
      Step s (p, .endOp)
        ⟨{ s.log with outstanding := s.log.outstanding - 1 },
          update (wakeup s.pc) p .idle⟩
  | stepped (p : Nat) (c next : CommitPc) (log : Log) (at' : s.pc p = .commit c)
      (moves : commitNext s.log c = some (next, log)) :
      Step s (p, .commitStep) ⟨log, update s.pc p (.commit next)⟩
  | finished (p : Nat) (at' : s.pc p = .commit .finish) :
      Step s (p, .commitDone)
        ⟨{ s.log with committing := false }, update (wakeup s.pc) p .idle⟩

theorem step_of_exec {s t : Sys} {e : Event} (done : exec s e = .ok t) : Step s e t := by
  obtain ⟨p, act⟩ := e
  cases act with
  | beginOp =>
    simp only [exec] at done
    split at done
    · rename_i ready
      cases answer : s.log.beginOp with
      | none =>
        rw [answer] at done
        cases done
        exact .slept p ready answer
      | some log =>
        rw [answer] at done
        cases done
        unfold Log.beginOp at answer
        split at answer
        · cases answer
        · rename_i quiet
          split at answer
          · cases answer
          · rename_i room
            cases answer
            exact .admitted p ready (by simpa using quiet) (by omega)
    · cases done
  | logWrite sector =>
    simp only [exec] at done
    split at done
    · rename_i inside
      cases answer : s.log.write sector with
      | error panic =>
        rw [answer] at done
        cases done
      | ok log =>
        rw [answer] at done
        cases done
        obtain ⟨_, room, rfl⟩ := Log.write_eq_ok.mp answer
        exact .logged p sector inside room _
    · cases done
  | endOp =>
    simp only [exec] at done
    split at done
    · rename_i inside
      unfold Log.endOp at done
      by_cases quiet : s.log.committing = true
      · simp [quiet] at done
      · have quiet' : s.log.committing = false := by simpa using quiet
        by_cases last : s.log.outstanding - 1 = 0
        · simp only [quiet', last, Bool.false_eq_true, if_false, if_true] at done
          cases done
          exact .lastEnded p inside quiet' (by omega)
        · simp only [quiet', last, Bool.false_eq_true, if_false] at done
          cases done
          have left := Step.ended p inside quiet' (by omega)
          simpa only [quiet'] using left
    · cases done
  | commitStep =>
    simp only [exec] at done
    split at done
    · rename_i c at'
      split at done
      · rename_i next log moves
        cases done
        exact .stepped p c next log at' moves
      · cases done
    · cases done
  | commitDone =>
    simp only [exec] at done
    split at done
    · rename_i at'
      cases done
      exact .finished p at'
    · cases done

end Sys

/-- The sectors log_written since the last commit finished. -/
def sinceCommit (es : List Event) : List UInt32 :=
  es.foldl (fun logged e => match e.2 with
    | .logWrite sector => logged ++ [sector]
    | .commitDone => []
    | _ => logged) []

theorem sinceCommit_snoc (es : List Event) (e : Event) :
    sinceCommit (es ++ [e]) = match e.2 with
      | .logWrite sector => sinceCommit es ++ [sector]
      | .commitDone => []
      | _ => sinceCommit es := by
  unfold sinceCommit
  rw [List.foldl_append]
  rfl

/-! ### The invariant -/

/-- The header has been erased in memory: `commit()` is past `log.lh.n = 0`. -/
def CommitPc.Erased (c : CommitPc) : Prop := c = .eraseHead ∨ c = .finish

/-- **The invariant of group commit**, for the state after the events `es`. -/
structure GroupInv (es : List Event) (s : Sys) : Prop where
  /-- `outstanding` counts the processes between `begin_op` and `end_op`. -/
  counted : ∃ ops : Finset Nat, (∀ p, p ∈ ops ↔ s.pc p = .inOp) ∧ s.log.outstanding = ops.card
  /-- Nobody is inside `commit()` while the flag is down. -/
  flag : ∀ p c, s.pc p = .commit c → s.log.committing = true
  /-- A commit runs with no operation in progress. -/
  alone : s.log.committing = true → s.log.outstanding = 0
  /-- At most one process commits. -/
  single : ∀ p q c d, s.pc p = .commit c → s.pc q = .commit d → p = q
  distinct : s.log.lh.sector.Nodup
  /-- Until it is erased the header lists the sectors logged since the last commit. -/
  logged : (∀ p c, s.pc p = .commit c → ¬ c.Erased) →
    ∀ x, x ∈ s.log.lh.sector ↔ x ∈ sinceCommit es
  erased : ∀ p c, s.pc p = .commit c → c.Erased → s.log.lh = LogHeader.empty
  quiet : s.log.outstanding = 0 → s.log.committing = false → s.log.lh = LogHeader.empty
  /-- Nobody sleeps in `begin_op` without somebody who will wake it. -/
  sleepers : ∀ q, s.pc q = .asleep → s.log.committing = true ∨ s.log.outstanding ≠ 0

namespace GroupInv

variable {es : List Event} {s t : Sys}

theorem initial (size nlog : Nat) : GroupInv [] (Sys.init size nlog) where
  counted := ⟨∅, fun _ => by simp [Sys.init], rfl⟩
  flag := fun _ _ absurdity => by cases absurdity
  alone := nofun
  single := fun _ _ _ _ absurdity => by cases absurdity
  distinct := List.nodup_nil
  logged := fun _ _ => Iff.rfl
  erased := fun _ _ absurdity => by cases absurdity
  quiet := fun _ _ => rfl
  sleepers := nofun

theorem no_op_of_committing (inv : GroupInv es s) (committing : s.log.committing = true) (q : Nat) :
    s.pc q ≠ .inOp := by
  obtain ⟨ops, member, count⟩ := inv.counted
  have none : ops.card = 0 := by
    have := inv.alone committing
    omega
  intro inside
  rw [Finset.card_eq_zero] at none
  have := (member q).mpr inside
  rw [none] at this
  exact absurd this (Finset.notMem_empty q)

theorem not_committing_of_op (inv : GroupInv es s) {p : Nat} (inside : s.pc p = .inOp) :
    s.log.committing = false := by
  cases committing : s.log.committing with
  | false => rfl
  | true => exact absurd inside (inv.no_op_of_committing committing p)

theorem no_commit (inv : GroupInv es s) (quiet : s.log.committing = false) (q : Nat)
    (c : CommitPc) : s.pc q ≠ .commit c := by
  intro at'
  rw [inv.flag q c at'] at quiet
  cases quiet

theorem update_eq_iff {pc : Nat → Pc} {p : Nat} {value c : Pc} (before : pc p ≠ c)
    (after : value ≠ c) (q : Nat) : update pc p value q = c ↔ pc q = c := by
  by_cases same : q = p
  · subst same
    rw [update_self]
    exact ⟨fun equal => absurd equal after, fun equal => absurd equal before⟩
  · rw [update_of_ne same]

theorem wakeup_eq_iff {pc : Nat → Pc} {c : Pc} (notWoken : c ≠ .woken) (notAsleep : c ≠ .asleep)
    (q : Nat) : Sys.wakeup pc q = c ↔ pc q = c := by
  unfold Sys.wakeup
  split
  · rename_i sleeping
    rw [sleeping]
    exact ⟨fun same => absurd same.symm notWoken, fun same => absurd same.symm notAsleep⟩
  · exact Iff.rfl

theorem leave_eq_iff {pc : Nat → Pc} {p : Nat} {c : Pc} (notIdle : c ≠ .idle)
    (notWoken : c ≠ .woken) (notAsleep : c ≠ .asleep) (q : Nat) :
    update (Sys.wakeup pc) p .idle q = c ↔ q ≠ p ∧ pc q = c := by
  by_cases same : q = p
  · subst same
    rw [update_self]
    exact ⟨fun equal => absurd equal.symm notIdle, fun both => absurd rfl both.1⟩
  · rw [update_of_ne same, wakeup_eq_iff notWoken notAsleep]
    exact ⟨fun equal => ⟨same, equal⟩, fun both => both.2⟩

theorem refused (inv : GroupInv es s) (none : s.log.beginOp = none) :
    s.log.committing = true ∨ s.log.outstanding ≠ 0 := by
  by_contra neither
  have quiet : s.log.committing = false := by simpa using fun up => neither (Or.inl up)
  have zero : s.log.outstanding = 0 := by simpa using fun other => neither (Or.inr other)
  unfold Log.beginOp at none
  rw [quiet, inv.quiet zero quiet, zero] at none
  revert none
  simp [LogHeader.n_empty, MAXOPBLOCKS, LOGSIZE]

theorem slept (inv : GroupInv es s) (p : Nat) (ready : s.pc p = .idle ∨ s.pc p = .woken)
    (none : s.log.beginOp = none) :
    GroupInv (es ++ [(p, .beginOp)]) { s with pc := update s.pc p .asleep } := by
  have notOp : s.pc p ≠ .inOp := by rcases ready with at' | at' <;> rw [at'] <;> decide
  have notCommit : ∀ c, s.pc p ≠ .commit c := by
    intro c
    rcases ready with at' | at' <;> rw [at'] <;> exact nofun
  have commits : ∀ q c, update s.pc p .asleep q = .commit c ↔ s.pc q = .commit c :=
    fun q c => update_eq_iff (notCommit c) (by simp) q
  obtain ⟨ops, member, count⟩ := inv.counted
  refine ⟨⟨ops, fun q => ?_, count⟩, ?_, inv.alone, ?_, inv.distinct, ?_, ?_, inv.quiet,
    fun _ _ => inv.refused none⟩
  · rw [member, update_eq_iff notOp (by decide)]
  · exact fun q c at' => inv.flag q c ((commits q c).mp at')
  · exact fun q r c d first second =>
      inv.single q r c d ((commits q c).mp first) ((commits r d).mp second)
  · intro before x
    rw [sinceCommit_snoc]
    exact inv.logged (fun q c at' => before q c ((commits q c).mpr at')) x
  · exact fun q c at' => inv.erased q c ((commits q c).mp at')

theorem admitted (inv : GroupInv es s) (p : Nat) (ready : s.pc p = .idle ∨ s.pc p = .woken)
    (quiet : s.log.committing = false) :
    GroupInv (es ++ [(p, .beginOp)])
      ⟨{ s.log with outstanding := s.log.outstanding + 1 }, update s.pc p .inOp⟩ := by
  have notOp : s.pc p ≠ .inOp := by rcases ready with at' | at' <;> rw [at'] <;> decide
  have nobody := inv.no_commit quiet
  have nobody' : ∀ q c, update s.pc p .inOp q ≠ .commit c := by
    intro q c at'
    rw [update_eq_iff (nobody p c) (by simp)] at at'
    exact nobody q c at'
  obtain ⟨ops, member, count⟩ := inv.counted
  have outside : p ∉ ops := fun inside => notOp ((member p).mp inside)
  refine ⟨⟨insert p ops, fun q => ?_, ?_⟩, fun q c at' => absurd at' (nobody' q c), ?_,
    fun q _ c _ at' => absurd at' (nobody' q c), inv.distinct, ?_,
    fun q c at' => absurd at' (nobody' q c), ?_, fun _ _ => Or.inr ?_⟩
  · rw [Finset.mem_insert, member]
    show q = p ∨ s.pc q = .inOp ↔ update s.pc p .inOp q = .inOp
    by_cases same : q = p
    · subst same
      rw [update_self]
      exact ⟨fun _ => rfl, fun _ => Or.inl rfl⟩
    · rw [update_of_ne same]
      exact ⟨fun either => either.resolve_left same, Or.inr⟩
  · rw [Finset.card_insert_of_notMem outside]
    show s.log.outstanding + 1 = ((ops.card + 1 : Nat) : Int)
    omega
  · intro committing
    rw [show s.log.committing = true from committing] at quiet
    cases quiet
  · intro _ x
    rw [sinceCommit_snoc]
    exact inv.logged (fun q c at' => absurd at' (nobody q c)) x
  · intro none _
    have none' : s.log.outstanding + 1 = 0 := none
    omega
  · show s.log.outstanding + 1 ≠ 0
    omega

theorem logWritten (inv : GroupInv es s) (p : Nat) (sector : UInt32) (inside : s.pc p = .inOp)
    (fits : s.log.lh.n < LOGSIZE) :
    GroupInv (es ++ [(p, .logWrite sector)])
      { s with log := { s.log with lh := s.log.lh.absorb sector fits } } := by
  have quiet := inv.not_committing_of_op inside
  have nobody := inv.no_commit quiet
  refine ⟨inv.counted, inv.flag, inv.alone, inv.single, LogHeader.nodup_absorb fits inv.distinct,
    ?_, fun q c at' => absurd at' (nobody q c), ?_, inv.sleepers⟩
  · intro before x
    rw [sinceCommit_snoc, LogHeader.mem_absorb, List.mem_append, List.mem_singleton,
      inv.logged before]
  · intro none _
    obtain ⟨ops, member, count⟩ := inv.counted
    have positive : 0 < ops.card := Finset.card_pos.mpr ⟨p, (member p).mpr inside⟩
    have none' : s.log.outstanding = 0 := none
    omega

theorem counted_leave (inv : GroupInv es s) {p : Nat} (inside : s.pc p = .inOp) (pc : Nat → Pc)
    (leaves : ∀ q, pc q = .inOp ↔ q ≠ p ∧ s.pc q = .inOp) :
    ∃ ops : Finset Nat, (∀ q, q ∈ ops ↔ pc q = .inOp) ∧ s.log.outstanding - 1 = ops.card := by
  obtain ⟨ops, member, count⟩ := inv.counted
  have present := (member p).mpr inside
  refine ⟨ops.erase p, fun q => ?_, ?_⟩
  · rw [Finset.mem_erase, member, leaves]
  · rw [Finset.card_erase_of_mem present, count]
    have positive : 0 < ops.card := Finset.card_pos.mpr ⟨p, present⟩
    omega

theorem lastEnded (inv : GroupInv es s) (p : Nat) (inside : s.pc p = .inOp)
    (last : s.log.outstanding = 1) :
    GroupInv (es ++ [(p, .endOp)])
      ⟨{ s.log with outstanding := 0, committing := true },
        update s.pc p (.commit .entry)⟩ := by
  have quiet := inv.not_committing_of_op inside
  have nobody := inv.no_commit quiet
  have only : ∀ q c, update s.pc p (.commit .entry) q = .commit c → q = p ∧ c = .entry := by
    intro q c at'
    by_cases same : q = p
    · subst same
      rw [update_self] at at'
      cases at'
      exact ⟨rfl, rfl⟩
    · rw [update_of_ne same] at at'
      exact absurd at' (nobody q c)
  obtain ⟨ops, member, count⟩ := inv.counted_leave inside
    (update s.pc p (.commit .entry)) fun q => by
      by_cases same : q = p
      · subst same
        rw [update_self]
        exact ⟨nofun, fun both => absurd rfl both.1⟩
      · rw [update_of_ne same]
        exact ⟨fun at' => ⟨same, at'⟩, fun both => both.2⟩
  refine ⟨⟨ops, member, ?_⟩, fun _ _ _ => rfl, fun _ => rfl, ?_, inv.distinct, ?_, ?_, ?_,
    fun _ _ => Or.inl rfl⟩
  · show (0 : Int) = ops.card
    omega
  · exact fun q r c d first second => (only q c first).1.trans (only r d second).1.symm
  · intro _ x
    rw [sinceCommit_snoc]
    exact inv.logged (fun q c at' => absurd at' (nobody q c)) x
  · intro q c at' erased
    rw [(only q c at').2] at erased
    rcases erased with absurdity | absurdity <;> cases absurdity
  · intro _ absurdity
    cases absurdity

theorem ended (inv : GroupInv es s) (p : Nat) (inside : s.pc p = .inOp)
    (others : s.log.outstanding ≠ 1) :
    GroupInv (es ++ [(p, .endOp)])
      ⟨{ s.log with outstanding := s.log.outstanding - 1 },
        update (Sys.wakeup s.pc) p .idle⟩ := by
  have quiet := inv.not_committing_of_op inside
  have nobody := inv.no_commit quiet
  have nobody' : ∀ q c, update (Sys.wakeup s.pc) p .idle q ≠ .commit c := by
    intro q c at'
    rw [leave_eq_iff (by simp) (by simp) (by simp)] at at'
    exact nobody q c at'.2
  refine ⟨inv.counted_leave inside _ fun q => leave_eq_iff (by decide) (by decide) (by decide) q,
    fun q c at' => absurd at' (nobody' q c), ?_, fun q _ c _ at' => absurd at' (nobody' q c),
    inv.distinct, ?_, fun q c at' => absurd at' (nobody' q c), ?_, fun _ _ => Or.inr ?_⟩
  · intro committing
    rw [show s.log.committing = true from committing] at quiet
    cases quiet
  · intro _ x
    rw [sinceCommit_snoc]
    exact inv.logged (fun q c at' => absurd at' (nobody q c)) x
  · intro none _
    have none' : s.log.outstanding - 1 = 0 := none
    omega
  · show s.log.outstanding - 1 ≠ 0
    omega

theorem commitNext_spec {log log' : Log} {c next : CommitPc}
    (moves : Sys.commitNext log c = some (next, log')) :
    log'.outstanding = log.outstanding ∧ log'.committing = log.committing ∧
      (¬ next.Erased → ¬ c.Erased ∧ log'.lh = log.lh) ∧
      (next.Erased → (c.Erased → log.lh = LogHeader.empty) → log'.lh = LogHeader.empty) := by
  cases c with
  | entry =>
    simp only [Sys.commitNext] at moves
    split at moves
    · cases moves
      exact ⟨rfl, rfl, fun _ => ⟨(by rintro (bad | bad) <;> cases bad), rfl⟩,
        fun erased => by rcases erased with bad | bad <;> cases bad⟩
    · rename_i zero
      cases moves
      refine ⟨rfl, rfl, fun notErased => absurd (Or.inr rfl) notErased, fun _ _ => ?_⟩
      exact LogHeader.ext (List.length_eq_zero_iff.mp (Nat.eq_zero_of_not_pos zero))
  | writeLog | writeHead | installTrans =>
    cases moves
    exact ⟨rfl, rfl, fun _ => ⟨(by rintro (bad | bad) <;> cases bad), rfl⟩,
      fun erased => by rcases erased with bad | bad <;> cases bad⟩
  | clear =>
    cases moves
    exact ⟨rfl, rfl, fun notErased => absurd (Or.inl rfl) notErased, fun _ _ => rfl⟩
  | eraseHead =>
    cases moves
    exact ⟨rfl, rfl, fun notErased => absurd (Or.inr rfl) notErased,
      fun _ old => old (Or.inl rfl)⟩
  | finish => cases moves

theorem stepped (inv : GroupInv es s) (p : Nat) {c next : CommitPc} {log : Log}
    (at' : s.pc p = .commit c) (moves : Sys.commitNext s.log c = some (next, log)) :
    GroupInv (es ++ [(p, .commitStep)]) ⟨log, update s.pc p (.commit next)⟩ := by
  obtain ⟨sameCount, sameFlag, kept, cleared⟩ := commitNext_spec moves
  have only : ∀ q d, update s.pc p (.commit next) q = .commit d → q = p ∧ d = next := by
    intro q d atD
    by_cases same : q = p
    · subst same
      rw [update_self] at atD
      cases atD
      exact ⟨rfl, rfl⟩
    · rw [update_of_ne same] at atD
      exact absurd (inv.single q p d c atD at') same
  have committing := inv.flag p c at'
  have emptied : next.Erased → log.lh = LogHeader.empty :=
    fun erased => cleared erased fun old => inv.erased p c at' old
  obtain ⟨ops, member, count⟩ := inv.counted
  refine ⟨⟨ops, fun q => ?_, by rw [sameCount, count]⟩, fun _ _ _ => by rw [sameFlag, committing],
    fun _ => by rw [sameCount, inv.alone committing], ?_, ?_, ?_, ?_, ?_,
    fun _ _ => Or.inl (by rw [sameFlag, committing])⟩
  · rw [member, update_eq_iff (by rw [at']; simp) (by simp)]
  · exact fun q r d d' first second => (only q d first).1.trans (only r d' second).1.symm
  · by_cases erased : next.Erased
    · rw [emptied erased]
      exact List.nodup_nil
    · rw [(kept erased).2]
      exact inv.distinct
  · intro before x
    have notErased := before p next (update_self ..)
    obtain ⟨notOld, same⟩ := kept notErased
    rw [sinceCommit_snoc, same]
    refine inv.logged (fun q d atD => ?_) x
    obtain rfl := inv.single q p d c atD at'
    rw [at'] at atD
    cases atD
    exact notOld
  · intro q d atD erased
    rw [(only q d atD).2] at erased
    exact emptied erased
  · intro _ absurdity
    rw [show log.committing = false from absurdity, committing] at sameFlag
    cases sameFlag

theorem finished (inv : GroupInv es s) (p : Nat) (at' : s.pc p = .commit .finish) :
    GroupInv (es ++ [(p, .commitDone)])
      ⟨{ s.log with committing := false }, update (Sys.wakeup s.pc) p .idle⟩ := by
  have emptied := inv.erased p .finish at' (Or.inr rfl)
  have nobody : ∀ q c, update (Sys.wakeup s.pc) p .idle q ≠ .commit c := by
    intro q c atC
    rw [leave_eq_iff (by simp) (by simp) (by simp)] at atC
    exact atC.1 (inv.single q p c .finish atC.2 at')
  obtain ⟨ops, member, count⟩ := inv.counted
  refine ⟨⟨ops, fun q => ?_, count⟩, fun q c atC => absurd atC (nobody q c),
    nofun, fun q _ c _ atC => absurd atC (nobody q c), inv.distinct,
    ?_, fun _ _ _ _ => emptied, fun _ _ => emptied, fun q asleep => absurd asleep ?_⟩
  · rw [member, leave_eq_iff (by decide) (by decide) (by decide)]
    refine ⟨fun inside => ⟨?_, inside⟩, fun both => both.2⟩
    rintro rfl
    rw [at'] at inside
    cases inside
  · intro _ x
    rw [sinceCommit_snoc]
    show x ∈ s.log.lh.sector ↔ x ∈ []
    rw [emptied, LogHeader.sector_empty]
  · show update (Sys.wakeup s.pc) p .idle q ≠ .asleep
    by_cases same : q = p
    · subst same
      rw [update_self]
      decide
    · rw [update_of_ne same]
      unfold Sys.wakeup
      split
      · decide
      · assumption

theorem keep (inv : GroupInv es s) {e : Event} (step : Sys.Step s e t) :
    GroupInv (es ++ [e]) t := by
  cases step with
  | slept p ready refused => exact inv.slept p ready refused
  | admitted p ready quiet _ => exact inv.admitted p ready quiet
  | logged p sector inside _ fits => exact inv.logWritten p sector inside fits
  | lastEnded p inside _ last => exact inv.lastEnded p inside last
  | ended p inside _ others => exact inv.ended p inside others
  | stepped p c next log at' moves => exact inv.stepped p at' moves
  | finished p at' => exact inv.finished p at'

theorem of_run {size nlog : Nat} {es : List Event} {s : Sys}
    (run : es.foldlM Sys.exec (Sys.init size nlog) = .ok s) : GroupInv es s :=
  run_invariant GroupInv (initial size nlog)
    (fun _ _ _ _ inv done => inv.keep (Sys.step_of_exec done)) es s run

end GroupInv

/-! ### The result -/

namespace Sys

/-- **What can panic**: a `log_write` or an `end_op` of a process inside an operation. -/
theorem panic_of_exec {s : Sys} {e : Event} {panic : Panic}
    (fails : exec s e = .error (.panic panic)) :
    s.pc e.1 = .inOp ∧
      ((∃ sector, e.2 = .logWrite sector ∧ s.log.write sector = .error panic) ∨
        (e.2 = .endOp ∧ s.log.endOp = .error panic)) := by
  obtain ⟨p, act⟩ := e
  cases act with
  | beginOp =>
    simp only [exec] at fails
    split at fails
    · cases answer : s.log.beginOp <;> rw [answer] at fails <;> cases fails
    · cases fails
  | logWrite sector =>
    simp only [exec] at fails
    split at fails
    · rename_i inside
      cases answer : s.log.write sector with
      | error reason =>
        rw [answer] at fails
        cases fails
        exact ⟨inside, Or.inl ⟨sector, rfl, answer⟩⟩
      | ok log =>
        rw [answer] at fails
        cases fails
    · cases fails
  | endOp =>
    simp only [exec] at fails
    split at fails
    · rename_i inside
      split at fails
      · rename_i reason answer
        cases fails
        exact ⟨inside, Or.inr ⟨rfl, answer⟩⟩
      · cases fails
      · cases fails
    · cases fails
  | commitStep =>
    simp only [exec] at fails
    split at fails
    · split at fails <;> cases fails
    · cases fails
  | commitDone =>
    simp only [exec] at fails
    split at fails <;> cases fails

theorem panic_is_tooBig {es : List Event} {s : Sys} (inv : GroupInv es s) {e : Event}
    {panic : Panic} (fails : exec s e = .error (.panic panic)) :
    ∃ p sector, e = (p, .logWrite sector) ∧ s.log.write sector = .error .tooBigATransaction := by
  obtain ⟨inside, ⟨sector, act, write⟩ | ⟨_, ended⟩⟩ := panic_of_exec fails
  · rcases Log.write_error write with rfl | ⟨rfl, outside⟩
    · exact ⟨e.1, sector, Prod.ext rfl act, write⟩
    · obtain ⟨ops, member, count⟩ := inv.counted
      have positive : 0 < ops.card := Finset.card_pos.mpr ⟨e.1, (member e.1).mpr inside⟩
      omega
  · have quiet := inv.not_committing_of_op inside
    rw [Log.endOp_error ended] at quiet
    cases quiet

theorem endOp_no_panic {es : List Event} {s : Sys} (inv : GroupInv es s) (e : Event) :
    exec s e ≠ .error (.panic .logCommitting) := by
  intro fails
  obtain ⟨inside, ⟨sector, _, write⟩ | ⟨_, ended⟩⟩ := panic_of_exec fails
  · rcases Log.write_error write with absurdity | ⟨absurdity, _⟩ <;> cases absurdity
  · have quiet := inv.not_committing_of_op inside
    rw [Log.endOp_error ended] at quiet
    cases quiet

theorem admits_when_quiet {es : List Event} {s : Sys} (inv : GroupInv es s)
    (none : s.log.outstanding = 0) (quiet : s.log.committing = false) {q : Nat}
    (ready : s.pc q = .idle ∨ s.pc q = .woken) :
    ∃ t, exec s (q, .beginOp) = .ok t ∧ t.pc q = .inOp := by
  have opens : s.log.beginOp = some { s.log with outstanding := s.log.outstanding + 1 } := by
    have room : ¬ (s.log.lh.n + (s.log.outstanding + 1) * MAXOPBLOCKS > LOGSIZE) := by
      rw [inv.quiet none quiet, none]
      decide
    unfold Log.beginOp
    rw [if_neg (by rw [quiet]; decide), if_neg room]
  refine ⟨⟨{ s.log with outstanding := s.log.outstanding + 1 }, update s.pc q .inOp⟩, ?_,
    update_self q _ _⟩
  simp only [exec, if_pos ready, opens]

end Sys

/-- **Group commit never splits an operation.** In every state of every run: while some process is
inside `commit()`, no process is inside an operation, no `begin_op` is admitted, no `log_write` can
happen, and until the header is erased it lists, without repetition, exactly the sectors log_written
since the previous commit; the panic `log.committing` cannot happen; and with nothing outstanding
and no commit running the log is empty, nobody is left sleeping in `begin_op`, and `begin_op` admits
whoever calls it. -/
theorem group_commit_never_splits (size nlog : Nat) (es : List Event) (s : Sys)
    (run : es.foldlM Sys.exec (Sys.init size nlog) = .ok s) :
    (∀ p c, s.pc p = .commit c →
      (∀ q, s.pc q ≠ .inOp) ∧
      (∀ q t, Sys.exec s (q, .beginOp) = .ok t → t.pc q ≠ .inOp) ∧
      (∀ q sector t, Sys.exec s (q, .logWrite sector) ≠ .ok t) ∧
      (c ≠ .eraseHead → c ≠ .finish →
        s.log.lh.sector.Nodup ∧ ∀ x, x ∈ s.log.lh.sector ↔ x ∈ sinceCommit es)) ∧
    (∀ e, Sys.exec s e ≠ .error (.panic .logCommitting)) ∧
    (s.log.outstanding = 0 → s.log.committing = false →
      s.log.lh = LogHeader.empty ∧ (∀ q, s.pc q ≠ .asleep) ∧
      ∀ q, s.pc q = .idle ∨ s.pc q = .woken →
        ∃ t, Sys.exec s (q, .beginOp) = .ok t ∧ t.pc q = .inOp) := by
  have inv := GroupInv.of_run run
  refine ⟨fun p c at' => ?_, Sys.endOp_no_panic inv, fun none quiet =>
    ⟨inv.quiet none quiet, fun q asleep => ?_, fun q ready =>
      Sys.admits_when_quiet inv none quiet ready⟩⟩
  swap
  · rcases inv.sleepers q asleep with committing | outstanding
    · rw [committing] at quiet
      cases quiet
    · exact outstanding none
  have committing := inv.flag p c at'
  have noOp := inv.no_op_of_committing committing
  refine ⟨noOp, ?_, ?_, ?_⟩
  · intro q t done
    cases Sys.step_of_exec done with
    | slept _ _ _ =>
      show update s.pc q .asleep q ≠ .inOp
      rw [update_self]
      decide
    | admitted _ _ quiet _ =>
      rw [committing] at quiet
      cases quiet
  · intro q sector t done
    cases Sys.step_of_exec done with
    | logged _ _ inside _ _ => exact noOp q inside
  · intro notErasing notFinished
    refine ⟨inv.distinct, inv.logged fun q d atD => ?_⟩
    obtain rfl := inv.single q p d c atD at'
    rw [at'] at atD
    cases atD
    rintro (erasing | finished)
    · exact notErasing erasing
    · exact notFinished finished

/-- Two operations that log sectors 40 and 41 between them, the second of them about to commit. -/
def overlappingOps : List Event :=
  [(0, .beginOp), (1, .beginOp), (0, .logWrite 40), (1, .logWrite 41), (1, .logWrite 40),
    (0, .endOp), (1, .endOp)]

theorem group_commit_overlapping :
    ∃ s, overlappingOps.foldlM Sys.exec (Sys.init 1024 30) = .ok s ∧ s.pc 1 = .commit .entry ∧
      (∀ q, s.pc q ≠ .inOp) ∧ s.log.lh.sector = [40, 41] ∧
      ∀ x, x ∈ s.log.lh.sector ↔ x ∈ [40, 41, 40] := by
  refine ⟨_, rfl, rfl, ?_, rfl, ?_⟩
  · exact ((group_commit_never_splits 1024 30 overlappingOps _ rfl).1 1 .entry rfl).1
  · exact (((group_commit_never_splits 1024 30 overlappingOps _ rfl).1 1 .entry rfl).2.2.2
      (by decide) (by decide)).2

end Xv6
