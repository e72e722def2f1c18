/-
**No lost wakeup.**

Any number of processes use data that the lock `lk` protects. A consumer takes `lk`, tests a
condition on the data, and calls `sleep(chan, lk)` while it does not hold; a producer takes `lk`,
makes the condition true, and calls `wakeup(chan)` before or after it releases `lk`. Any process can
be both, one after the other, and any event may follow any other.

The state has one thing that the source does not have: `maker`, the producer that made the condition
true last.
-/

import Xv6.Lib.Lock
import Xv6.Proc.Table

namespace Xv6

open Lib Function

/-- Where a process is. The comments say which locks it holds there. -/
inductive SyncPc
  /-- Nowhere in this code. -/
  | outside
  /-- A consumer at the test of the condition, with `lk`. -/
  | testing
  /-- In `sleep`, at `acquire(&ptable.lock)`, with `lk`. -/
  | sleeplock
  /-- In `sleep`, at `release(lk)`, with both locks. -/
  | unlocking
  /-- In `sleep`, behind `release(lk)`, with `ptable.lock`. -/
  | unlocked
  /-- In `sleep`, in `sched`. -/
  | asleep
  /-- In `sleep`, at `acquire(lk)`. -/
  | awake
  /-- A consumer that found the condition true, with `lk`. -/
  | consuming
  /-- A producer, with `lk`. -/
  | producing
  /-- A producer that made the condition true, with `lk`. -/
  | made
  /-- A producer that released `lk` before its call of `wakeup`. -/
  | owing
  /-- A producer behind its call of `wakeup`, with `lk`. -/
  | woke
  deriving DecidableEq

/-- The process holds `lk`. -/
def SyncPc.locks : SyncPc → Bool
  | testing | sleeplock | unlocking | consuming | producing | made | woke => true
  | _ => false

/-- The process holds `ptable.lock`. -/
def SyncPc.locksPtable : SyncPc → Bool
  | unlocking | unlocked => true
  | _ => false

/-- The process found that the condition does not hold, and holds `lk` since. -/
def SyncPc.unmet : SyncPc → Bool
  | sleeplock | unlocking => true
  | _ => false

/-- The process made the condition true and has not called `wakeup` yet. -/
def SyncPc.owes : SyncPc → Bool
  | made | owing => true
  | _ => false

/-- The process may leave its critical section under `lk`; a consumer may be killed before it found
the condition true. -/
def SyncPc.leaves : SyncPc → Bool
  | testing | consuming | producing | made | woke => true
  | _ => false

/-- Processes that synchronise on data of type `σ`. -/
structure Sync (ι σ : Type) where
  proc : ι → Proc
  pc : ι → SyncPc
  /-- Who holds `lk`. -/
  lk : Option ι
  /-- Who holds `ptable.lock`. -/
  ptable : Option ι
  data : σ
  maker : Option ι

inductive SyncEvent (ι σ : Type)
  /-- `acquire(lk)` by a consumer. -/
  | consumer (i : ι)
  /-- `acquire(lk)` by a producer. -/
  | producer (i : ι)
  /-- The test of the condition. -/
  | test (i : ι)
  /-- `acquire(&ptable.lock)` in `sleep`. -/
  | sleeplock (i : ι)
  /-- `release(lk)` in `sleep`. -/
  | unlock (i : ι)
  /-- The rest of the critical section of `sleep`, up to the switch to the scheduler. -/
  | sched (i : ι)
  /-- The scheduler chooses the process; in `sleep`, that goes on up to `release(&ptable.lock)`. -/
  | scheduler (i : ι)
  /-- `acquire(lk)` in `sleep`. -/
  | relock (i : ι)
  /-- A consumer changes the data. -/
  | consume (i : ι) (data : σ)
  /-- A producer changes the data. -/
  | produce (i : ι) (data : σ)
  /-- `wakeup`. -/
  | wakeup (i : ι)
  /-- `release(lk)`. -/
  | release (i : ι)
  /-- `yield`. -/
  | yield (i : ι)
  /-- `kill` of the process. -/
  | kill (i : ι)

namespace Sync

section Step

variable {ι σ : Type} [DecidableEq ι]

/-- Process `i` goes on to `pc`. -/
def goto (s : Sync ι σ) (i : ι) (pc : SyncPc) : Sync ι σ := { s with pc := update s.pc i pc }

def setProc (s : Sync ι σ) (i : ι) (p : Proc) : Sync ι σ := { s with proc := update s.proc i p }

/-- Process `i` runs and is at `pc`. -/
def At (s : Sync ι σ) (i : ι) (pc : SyncPc) : Prop := (s.proc i).state = .RUNNING ∧ s.pc i = pc

instance (s : Sync ι σ) (i : ι) (pc : SyncPc) : Decidable (s.At i pc) :=
  inferInstanceAs (Decidable (_ ∧ _))

/-- The process that makes the condition true from now on. -/
def making (s : Sync ι σ) (cond : σ → Bool) (i : ι) (data : σ) : Sync ι σ :=
  { s with data, maker := if cond s.data = false ∧ cond data = true then some i else s.maker }

/-- **One event.** -/
def step (cond : σ → Bool) (chan : Chan) (s : Sync ι σ) : SyncEvent ι σ → Except ProcStop (Sync ι σ)
  | .consumer i => when (s.At i .outside ∧ s.lk = none) ({ s with lk := some i }.goto i .testing)
  | .producer i => when (s.At i .outside ∧ s.lk = none) ({ s with lk := some i }.goto i .producing)
  | .test i => when (s.At i .testing) (s.goto i (if cond s.data then .consuming else .sleeplock))
  | .sleeplock i => when (s.At i .sleeplock ∧ s.ptable = none)
      ({ s with ptable := some i }.goto i .unlocking)
  | .unlock i => when (s.At i .unlocking) ({ s with lk := none }.goto i .unlocked)
  | .sched i => when (s.At i .unlocked)
      (({ s with ptable := none }.setProc i
        { s.proc i with chan := some chan, inSleep := true, state := .SLEEPING }).goto i .asleep)
  | .scheduler i => when ((s.proc i).state = .RUNNABLE ∧ s.ptable = none)
      ((s.setProc i (Ptable.resumed (s.proc i))).goto i
        (if s.pc i = .asleep then .awake else s.pc i))
  | .relock i => when (s.At i .awake ∧ s.lk = none) ({ s with lk := some i }.goto i .testing)
  | .consume i data =>
    when (s.At i .consuming ∧ (cond data = true → cond s.data = true)) { s with data }
  | .produce i data => when (s.At i .producing ∧ cond data = true)
      ((s.making cond i data).goto i .made)
  | .wakeup i => when ((s.At i .made ∨ s.At i .owing) ∧ s.ptable = none)
      ({ s with proc := fun j => Ptable.wake (some chan) (s.proc j) }.goto i
        (if s.pc i = SyncPc.made then .woke else .outside))
  | .release i => when ((s.proc i).state = .RUNNING ∧ (s.pc i).leaves = true)
      ({ s with lk := none }.goto i (if s.pc i = SyncPc.made then .owing else .outside))
  | .yield i => when ((s.proc i).state = .RUNNING ∧ s.ptable = none)
      (s.setProc i { s.proc i with state := .RUNNABLE })
  | .kill i => when (s.ptable = none) (s.setProc i (Ptable.killed (s.proc i)))

/-- Process `i` sleeps on `chan`, or will before anybody else gets `ptable.lock`. -/
def Waits (s : Sync ι σ) (chan : Chan) (i : ι) : Prop :=
  s.pc i = .unlocked ∨ (s.proc i).SleepsOn chan

/-- Processes that are about to run this code. -/
structure Start (s : Sync ι σ) (chan : Chan) : Prop where
  outside : ∀ i, s.pc i = .outside
  awake : ∀ i, ¬ (s.proc i).SleepsOn chan
  lk : s.lk = none
  ptable : s.ptable = none

/-- **Nobody waits for a condition that holds, unless a wakeup is still to come.** -/
structure Inv (cond : σ → Bool) (chan : Chan) (s : Sync ι σ) : Prop where
  lk : Held s.pc SyncPc.locks s.lk
  ptable : Held s.pc SyncPc.locksPtable s.ptable
  unmet : ∀ i, (s.pc i).unmet = true → cond s.data = false
  owed : ∀ i, s.Waits chan i → cond s.data = true → ∃ j, s.maker = some j ∧ (s.pc j).owes = true

end Step

section Inv

variable {ι σ : Type} [DecidableEq ι] {cond : σ → Bool} {chan : Chan} {s t : Sync ι σ} {i : ι}

theorem owes_update {pc : SyncPc} (owes : (s.pc i).owes = true → pc.owes = true) :
    ∀ j, (s.pc j).owes = true → (update s.pc i pc j).owes = true :=
  (forall_update_iff s.pc fun j pc => (s.pc j).owes = true → pc.owes = true).mpr
    ⟨owes, fun _ _ same => same⟩

theorem unlocked_update {pc : SyncPc} (other : pc ≠ .unlocked) :
    ∀ j, update s.pc i pc j = .unlocked → s.pc j = .unlocked :=
  (forall_update_iff s.pc fun j pc => pc = .unlocked → s.pc j = .unlocked).mpr
    ⟨fun here => absurd here other, fun _ _ same => same⟩

theorem Inv.goto (inv : s.Inv cond chan) {pc : SyncPc} {lk ptable : Option ι}
    (lk' : Held (update s.pc i pc) SyncPc.locks lk)
    (ptable' : Held (update s.pc i pc) SyncPc.locksPtable ptable)
    (unmet : pc.unmet = true ∨ pc = .unlocked → cond s.data = false)
    (owes : (s.pc i).owes = true → pc.owes = true) :
    ({ s with lk := lk, ptable := ptable }.goto i pc).Inv cond chan := by
  refine ⟨lk', ptable', ?_, fun j waits met => ?_⟩
  · exact (forall_update_iff s.pc fun j pc => pc.unmet = true → cond s.data = false).mpr
      ⟨fun found => unmet (.inl found), fun j _ => inv.unmet j⟩
  · have other : pc ≠ .unlocked := by
      intro here
      rw [show cond s.data = true from met] at unmet
      exact Bool.false_ne_true (unmet (.inr here)).symm
    obtain ⟨maker, made, owing⟩ := inv.owed j (waits.imp_left (unlocked_update other j)) met
    exact ⟨maker, made, owes_update owes maker owing⟩

theorem Inv.setProc (inv : s.Inv cond chan) {p : Proc}
    (sleeps : p.state = .SLEEPING → p.chan = some chan → s.Waits chan i) :
    (s.setProc i p).Inv cond chan := by
  have waits : ∀ j, (update s.proc i p j).state = .SLEEPING ∧
      (update s.proc i p j).chan = some chan → s.Waits chan j :=
    (forall_update_iff s.proc fun j p => p.state = .SLEEPING ∧ p.chan = some chan →
      s.Waits chan j).mpr
      ⟨fun both => sleeps both.1 both.2, fun j _ both => .inr both⟩
  exact ⟨inv.lk, inv.ptable, inv.unmet, fun j waits' => inv.owed j (waits'.elim .inl (waits j))⟩

omit [DecidableEq ι] in
theorem Inv.alone (inv : s.Inv cond chan) (mine : (s.pc i).locks = true)
    (met : (s.pc i).unmet = false) (j : ι) : (s.pc j).unmet = false := by
  rw [← Bool.not_eq_true]
  intro found
  have locks : (s.pc j).locks = true := by
    cases place : s.pc j <;> rw [place] at found <;> first | rfl | cases found
  rw [inv.lk.eq locks mine, met] at found
  exact Bool.false_ne_true found

theorem Inv.produce (inv : s.Inv cond chan) {data : σ} (place : s.pc i = .producing)
    (met : cond data = true) : ((s.making cond i data).goto i .made).Inv cond chan := by
  have alone := inv.alone (i := i) (by rw [place]; rfl) (by rw [place]; rfl)
  have still : ∀ j, (s.pc j).owes = true → (update s.pc i .made j).owes = true :=
    owes_update fun _ => rfl
  have other : SyncPc.made ≠ .unlocked := nofun
  refine ⟨inv.lk.keep (by rw [place]; rfl), inv.ptable.keep (by rw [place]; rfl), ?_,
    fun j waits _ => ?_⟩
  · refine (forall_update_iff s.pc fun j pc => pc.unmet = true → cond data = false).mpr
      ⟨nofun, fun j _ found => ?_⟩
    rw [alone] at found
    cases found
  · by_cases before : cond s.data = true
    · obtain ⟨maker, made, owing⟩ := inv.owed j (waits.imp_left (unlocked_update other j)) before
      refine ⟨maker, ?_, still maker owing⟩
      show (if cond s.data = false ∧ cond data = true then some i else s.maker) = some maker
      rw [if_neg fun both => Bool.false_ne_true (both.1.symm.trans before)]
      exact made
    · refine ⟨i, if_pos ⟨Bool.not_eq_true _ ▸ before, met⟩, ?_⟩
      show (update s.pc i .made i).owes = true
      rw [update_self]
      rfl

theorem Inv.wakeup (inv : s.Inv cond chan) (free : s.ptable = none) {pc : SyncPc}
    (kept : pc.locks = (s.pc i).locks) (kept' : pc.locksPtable = false) (met : pc.unmet = false) :
    ({ s with proc := fun j => Ptable.wake (some chan) (s.proc j) }.goto i pc).Inv cond chan := by
  have ptable : Held s.pc SyncPc.locksPtable none := free ▸ inv.ptable
  have unlocked : ∀ j, s.pc j ≠ .unlocked := by
    intro j here
    have locks := ptable.free j
    rw [here] at locks
    cases locks
  have asleep : ∀ j, ¬ ((Ptable.wake (some chan) (s.proc j)).state = .SLEEPING ∧
      (Ptable.wake (some chan) (s.proc j)).chan = some chan) := by
    rintro j ⟨sleeping, on'⟩
    unfold Ptable.wake at sleeping on'
    split at sleeping
    · cases sleeping
    · next other =>
      rw [if_neg other] at on'
      exact other ⟨sleeping, on'⟩
  have still : pc ≠ .unlocked := by
    rintro rfl
    cases kept'
  refine ⟨inv.lk.keep kept, inv.ptable.keep (kept'.trans (ptable.free i).symm), ?_,
    fun j waits => ?_⟩
  · refine (forall_update_iff s.pc fun j pc => pc.unmet = true → cond s.data = false).mpr
      ⟨fun found => ?_, fun j _ => inv.unmet j⟩
    rw [met] at found
    cases found
  · exact (waits.elim (fun here => unlocked j (unlocked_update still j here)) (asleep j)).elim

theorem Inv.step (inv : s.Inv cond chan) {e : SyncEvent ι σ} (done : s.step cond chan e = .ok t) :
    t.Inv cond chan := by
  -- Of the place a process is at, what it holds there is all that counts.
  cases e with
  | consumer i =>
    obtain ⟨⟨⟨_, place⟩, free⟩, rfl⟩ := when_eq_ok.mp done
    exact inv.goto ((free ▸ inv.lk).take i rfl) (inv.ptable.keep (by rw [place]; rfl)) nofun
      (by rw [place]; nofun)
  | producer i =>
    obtain ⟨⟨⟨_, place⟩, free⟩, rfl⟩ := when_eq_ok.mp done
    exact inv.goto ((free ▸ inv.lk).take i rfl) (inv.ptable.keep (by rw [place]; rfl)) nofun
      (by rw [place]; nofun)
  | test i =>
    obtain ⟨⟨_, place⟩, rfl⟩ := when_eq_ok.mp done
    by_cases met : cond s.data = true
    · rw [if_pos met]
      exact inv.goto (inv.lk.keep (by rw [place]; rfl)) (inv.ptable.keep (by rw [place]; rfl)) nofun
        (by rw [place]; nofun)
    · rw [if_neg met]
      exact inv.goto (inv.lk.keep (by rw [place]; rfl)) (inv.ptable.keep (by rw [place]; rfl))
        (fun _ => Bool.not_eq_true _ ▸ met) (by rw [place]; nofun)
  | sleeplock i =>
    obtain ⟨⟨⟨_, place⟩, free⟩, rfl⟩ := when_eq_ok.mp done
    exact inv.goto (inv.lk.keep (by rw [place]; rfl)) ((free ▸ inv.ptable).take i rfl)
      (fun _ => inv.unmet i (by rw [place]; rfl)) (by rw [place]; nofun)
  | unlock i =>
    obtain ⟨⟨_, place⟩, rfl⟩ := when_eq_ok.mp done
    exact inv.goto (inv.lk.give (by rw [place]; rfl) rfl) (inv.ptable.keep (by rw [place]; rfl))
      (fun _ => inv.unmet i (by rw [place]; rfl)) (by rw [place]; nofun)
  | sched i =>
    obtain ⟨⟨_, place⟩, rfl⟩ := when_eq_ok.mp done
    have inv' := inv.setProc (i := i) (p := { s.proc i with
      chan := some chan, inSleep := true, state := .SLEEPING }) fun _ _ => .inl place
    exact inv'.goto (inv.lk.keep (by rw [place]; rfl))
      (inv.ptable.give (by rw [place]; rfl) rfl) nofun
      (by rw [show (s.setProc i _).pc i = _ from place]; nofun)
  | scheduler i =>
    obtain ⟨⟨runnable, free⟩, rfl⟩ := when_eq_ok.mp done
    have inv' := inv.setProc (i := i) (p := Ptable.resumed (s.proc i)) fun sleeping _ => by
      unfold Ptable.resumed at sleeping
      split at sleeping <;> cases sleeping
    by_cases asleep : s.pc i = .asleep
    · rw [if_pos asleep]
      exact inv'.goto (inv.lk.keep (by rw [asleep]; rfl))
        (inv.ptable.keep (by rw [asleep]; rfl)) nofun
        (by rw [show (s.setProc i _).pc i = _ from asleep]; nofun)
    · rw [if_neg asleep]
      refine inv'.goto (inv.lk.keep rfl) (inv.ptable.keep rfl) ?_ id
      rintro (found | here)
      · exact inv.unmet i found
      · have locks := (free ▸ inv.ptable : Held s.pc SyncPc.locksPtable none).free i
        rw [here] at locks
        cases locks
  | relock i =>
    obtain ⟨⟨⟨_, place⟩, free⟩, rfl⟩ := when_eq_ok.mp done
    exact inv.goto ((free ▸ inv.lk).take i rfl) (inv.ptable.keep (by rw [place]; rfl)) nofun
      (by rw [place]; nofun)
  | consume i data =>
    obtain ⟨⟨⟨_, place⟩, before⟩, rfl⟩ := when_eq_ok.mp done
    have alone := inv.alone (i := i) (by rw [place]; rfl) (by rw [place]; rfl)
    refine ⟨inv.lk, inv.ptable, fun j found => ?_, fun j waits met => inv.owed j waits (before met)⟩
    rw [alone j] at found
    cases found
  | produce i data =>
    obtain ⟨⟨⟨_, place⟩, met⟩, rfl⟩ := when_eq_ok.mp done
    exact inv.produce place met
  | wakeup i =>
    obtain ⟨⟨⟨_, place⟩ | ⟨_, place⟩, free⟩, rfl⟩ := when_eq_ok.mp done
    · rw [if_pos place]
      exact inv.wakeup free (by rw [place]; rfl) rfl rfl
    · rw [if_neg (by rw [place]; nofun)]
      exact inv.wakeup free (by rw [place]; rfl) rfl rfl
  | release i =>
    obtain ⟨⟨_, leaves⟩, rfl⟩ := when_eq_ok.mp done
    have locks : (s.pc i).locks = true ∧ (s.pc i).locksPtable = false := by
      cases place : s.pc i <;> rw [place] at leaves <;> first | exact ⟨rfl, rfl⟩ | cases leaves
    by_cases made : s.pc i = .made
    · rw [if_pos made]
      exact inv.goto (inv.lk.give locks.1 rfl) (inv.ptable.keep locks.2.symm) nofun fun _ => rfl
    · rw [if_neg made]
      refine inv.goto (inv.lk.give locks.1 rfl) (inv.ptable.keep locks.2.symm) nofun fun owes => ?_
      cases place : s.pc i <;> rw [place] at owes leaves made <;> contradiction
  | yield i =>
    obtain ⟨_, rfl⟩ := when_eq_ok.mp done
    exact inv.setProc nofun
  | kill i =>
    obtain ⟨_, rfl⟩ := when_eq_ok.mp done
    refine inv.setProc fun sleeping _ => ?_
    change (if (s.proc i).state = .SLEEPING then ProcState.RUNNABLE else (s.proc i).state) =
      _ at sleeping
    split at sleeping
    · cases sleeping
    · contradiction

omit [DecidableEq ι] in
theorem Start.inv (start : s.Start chan) : s.Inv cond chan := by
  refine ⟨fun i => ?_, fun i => ?_, fun i found => ?_, ?_⟩
  · rw [start.outside, start.lk]
    exact iff_of_false nofun nofun
  · rw [start.outside, start.ptable]
    exact iff_of_false nofun nofun
  · rw [start.outside] at found
    cases found
  · rintro i (unlocked | sleeps)
    · rw [start.outside] at unlocked
      cases unlocked
    · exact absurd sleeps (start.awake i)

end Inv

end Sync

/-- **No lost wakeup.** In every state that a run reaches: if a process sleeps on `chan` while the
condition holds, the producer that made it true has its call of `wakeup` still ahead of it. This is
so whether or not the locks are free. -/
theorem wakeup_owed {ι σ : Type} [DecidableEq ι] {cond : σ → Bool} {chan : Chan} {s t : Sync ι σ}
    {es : List (SyncEvent ι σ)} (start : s.Start chan)
    (run : es.foldlM (Sync.step cond chan) s = .ok t) {i : ι}
    (sleeping : (t.proc i).state = .SLEEPING) (on' : (t.proc i).chan = some chan)
    (met : cond t.data = true) : ∃ j, t.maker = some j ∧ (t.pc j).owes = true := by
  have inv :=
    run_invariant (fun _ t => t.Inv cond chan) start.inv (fun _ _ _ _ inv done => inv.step done)
    es t run
  exact inv.owed i (.inr ⟨sleeping, on'⟩) met

/-- Two processes, the consumer `0` and the producer `1`, and a count that starts with `0`. -/
def queueStart : Sync (Fin 2) Nat :=
  ⟨fun _ => { Proc.zero with state := .RUNNING }, fun _ => .outside, none, none, 0, none⟩

/-- The producer releases the lock before its wakeup. -/
def queueEvents : List (SyncEvent (Fin 2) Nat) :=
  [.consumer 0, .test 0, .sleeplock 0, .unlock 0, .producer 1, .produce 1 1, .release 1, .sched 0]

/-- The consumer falls asleep although there is something in the queue; the wakeup is still to
come. -/
theorem wakeup_owed_queue : ∃ t,
    queueEvents.foldlM (Sync.step (fun n => decide (0 < n)) (.other 0)) queueStart = .ok t ∧
      (t.proc 0).state = .SLEEPING ∧ ∃ j, t.maker = some j ∧ (t.pc j).owes = true :=
  have start : queueStart.Start (.other 0) :=
    ⟨fun _ => rfl, fun _ sleeps => (nomatch sleeps.1), rfl, rfl⟩
  have run :
      queueEvents.foldlM (Sync.step (fun n => decide (0 < n)) (.other 0)) queueStart = .ok _ := rfl
  ⟨_, run, rfl, wakeup_owed start run (i := 0) rfl rfl rfl⟩

end Xv6
