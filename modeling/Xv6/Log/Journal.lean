/-
**The log over whole runs, with a crash at any disk write.**

`Durable` is what the log is for: clients see a change at once, and all changes become safe together
when no operation is outstanding. `Journal` is the log with its buffers and the disk; the calls of
all processes come in any order, and the last `end_op` commits.
-/

import Xv6.Bio.Transparent
import Xv6.Log.Group

namespace Xv6

open Lib Function

/-- **A completed commit** leaves nothing pending. -/
theorem Log.commit_settles {log : Log} {s : Bufs} (clean : (s.disk log.start).word 0 = 0)
    (fresh : s.writes = []) (tx : log.Transaction log.lh (log.newBlocks s)) :
    applyWrites s.disk (log.commit s).2.writes = (log.commit s).2.disk ∧
      Settled log (applyWrites s.disk (homeWrites log.lh.sector (log.newBlocks s)))
      (log.commit s).2.disk := by
  by_cases some' : 0 < log.lh.n
  · obtain ⟨committed, erased, _, zero, run⟩ := performs_commit some' tx
    have disk : applyWrites s.disk (log.commit s).2.writes = (log.commit s).2.disk := by
      rw [run.issued, run.disk, fresh]
      rfl
    have header : (log.commit s).2.disk log.start = erased := by
      rw [run.disk, ← List.cons_append, ← List.append_assoc, applyWrites_snoc, update_self]
    have many : log.lh.n < (log.commit s).2.writes.length := by
      rw [run.issued, List.length_append, List.length_append, length_logWrites, tx.length,
        List.length_cons]
      exact Nat.lt_of_lt_of_le (Nat.lt_add_of_pos_right (Nat.succ_pos _)) (Nat.le_add_left _ _)
    have late := (commit_crash clean fresh tx _).2 many
    rw [List.take_length, disk] at late
    refine ⟨disk, late.resolve_left fun pending => ?_⟩
    have loads := pending.header
    rw [header, LogHeader.load_of_zero zero] at loads
    rw [← Option.some.inj loads] at some'
    exact absurd some' (Nat.lt_irrefl 0)
  · have settled := (commit_crash clean fresh tx 0).1 (Nat.zero_le _)
    have none' : log.lh.sector = [] := List.length_eq_zero_iff.mp (Nat.eq_zero_of_not_pos some')
    rw [show log.commit s = (log, s) from if_neg some', fresh, none']
    exact ⟨rfl, settled⟩

/-- The calls on the log, by any process. -/
inductive JournalOp
  | beginOp
  /-- The data of a buffer are changed and logged. -/
  | logWrite (sector : UInt32) (data : Block)
  | endOp

/-- **A store whose changes become safe together.** -/
structure Durable where
  outstanding : Int
  live : Nat → Block
  safe : Nat → Block

namespace Durable

def boot (disk : Nat → Block) : Durable := ⟨0, disk, disk⟩

def step (d : Durable) : JournalOp → Durable
  | .beginOp => { d with outstanding := d.outstanding + 1 }
  | .logWrite sector data => { d with live := update d.live sector.toNat data }
  | .endOp => ⟨d.outstanding - 1, d.live, if d.outstanding = 1 then d.live else d.safe⟩

end Durable

/-- The log, and the buffers with the disk writes of the last call. -/
structure Journal where
  log : Log
  bufs : Bufs

namespace Journal

def boot (size nlog : Nat) (disk : Nat → Block) : Journal := ⟨Log.init size nlog, Bufs.boot disk⟩

/-- The buffers before a call. -/
def fresh (j : Journal) : Bufs := { j.bufs with writes := [] }

/-- **One call.** Clients log no sector of the log itself. -/
def step (j : Journal) : JournalOp → Except Fault Journal
  | .beginOp =>
    match j.log.beginOp with
    | none => .error .notEnabled
    | some log => .ok ⟨log, j.fresh⟩
  | .logWrite sector data =>
    if j.log.InLog sector.toNat then .error .notEnabled
    else match j.log.write sector with
      | .error panic => .error (.panic panic)
      | .ok log => .ok ⟨log, j.fresh.store sector.toNat data⟩
  | .endOp =>
    match j.log.endOp with
    | .error panic => .error (.panic panic)
    | .ok (false, log) => .ok ⟨log, j.fresh⟩
    | .ok (true, log) =>
      .ok ⟨{ (log.commit j.fresh).1 with committing := false }, (log.commit j.fresh).2⟩

/-- A recovery from `disk` leaves the blocks of `safe` outside the log. -/
def Recovers (log : Log) (safe disk : Nat → Block) : Prop :=
  ∃ target, (∀ x, ¬ log.InLog x → target x = safe x) ∧ (Log.Settled log target disk ∨
    ∃ lh vs old, Log.Transaction log lh vs ∧ Log.Pending log lh vs old disk ∧
      target = applyWrites old (Log.homeWrites lh.sector vs))

/-- **The journal shows what `d` shows**; the log is where that of `log` is. -/
structure Inv (log : Log) (d : Durable) (j : Journal) : Prop where
  start : j.log.start = log.start
  size : j.log.size = log.size
  count : j.log.outstanding = d.outstanding
  ready : BioSys.Ready j.log
  live : ∀ x, ¬ log.InLog x → j.bufs.view x = d.live x
  logged : ∀ x, ¬ log.InLog x → x ∉ j.log.lh.sector.map UInt32.toNat → d.live x = d.safe x
  settled : Log.Settled log d.safe j.bufs.disk

/-- **The call took the safe blocks from `safe` to `safe'`**, all at once. -/
structure Atomic (log : Log) (safe safe' : Nat → Block) (j t : Journal) : Prop where
  written : applyWrites j.bufs.disk t.bufs.writes = t.bufs.disk
  cut : ∀ i, Recovers log safe (applyWrites j.bufs.disk (t.bufs.writes.take i)) ∨
    Recovers log safe' (applyWrites j.bufs.disk (t.bufs.writes.take i))

section Keep

variable {log log' : Log} {disk safe : Nat → Block} {d : Durable} {j t : Journal} {e : JournalOp}

theorem Recovers.of_settled (settled : Log.Settled log safe disk) : Recovers log safe disk :=
  ⟨safe, fun _ _ => rfl, .inl settled⟩

theorem Recovers.of_place (start : log'.start = log.start) (size : log'.size = log.size)
    (recovers : Recovers log' safe disk) : Recovers log safe disk := by
  obtain ⟨_, _, _, _, _⟩ := log
  obtain ⟨_, _, _, _, _⟩ := log'
  cases start
  cases size
  obtain ⟨target, same, settled | ⟨lh, vs, old, tx, pending, rfl⟩⟩ := recovers
  · exact ⟨target, same, .inl ⟨settled.1, settled.2⟩⟩
  · exact ⟨_, same,
      .inr ⟨lh, vs, old, ⟨tx.1, tx.2, tx.3, tx.4⟩, ⟨pending.1, pending.2, pending.3⟩, rfl⟩⟩

theorem Inv.inLog (inv : Inv log d j) (x : Nat) : j.log.InLog x ↔ log.InLog x := by
  unfold Log.InLog
  rw [inv.start, inv.size]

/-- A call that writes nothing to the disk. -/
theorem Inv.unwritten (inv : Inv log d j) (same : t.bufs.disk = j.bufs.disk)
    (none' : t.bufs.writes = []) : Atomic log d.safe safe j t := by
  refine ⟨by rw [none', same, applyWrites_nil], fun i => .inl ?_⟩
  rw [none', List.take_nil, applyWrites_nil]
  exact .of_settled inv.settled

/-- **The commit** of the last operation. -/
theorem Inv.commit (inv : Inv log d j) (nonempty : 0 < log.size) (last : d.outstanding = 1) :
    let log₁ : Log := { j.log with outstanding := j.log.outstanding - 1, committing := true }
    let t : Journal :=
      ⟨{ (log₁.commit j.fresh).1 with committing := false }, (log₁.commit j.fresh).2⟩
    Inv log (d.step .endOp) t ∧ Atomic log d.safe (d.step .endOp).safe j t := by
  intro log₁ t
  obtain ⟨start, size⟩ : log₁.start = log.start ∧ log₁.size = log.size := ⟨inv.start, inv.size⟩
  have ready : BioSys.Ready log₁ := ⟨inv.ready.1, inv.ready.2, inv.ready.3, inv.ready.4⟩
  have safe : (d.step .endOp).safe = d.live := if_pos last
  have tx : log₁.Transaction log₁.lh (log₁.newBlocks j.fresh) := by
    refine ⟨List.length_map .., ?_, ready.distinct, ready.outside⟩
    have room := ready.room
    omega
  have clean : (j.fresh.disk log₁.start).word 0 = 0 := start ▸ inv.settled.header
  -- The new blocks and the old ones make up what the clients see.
  have target : ∀ x, ¬ log.InLog x →
      applyWrites j.fresh.disk (Log.homeWrites log₁.lh.sector (log₁.newBlocks j.fresh)) x =
      d.live x := by
    intro x apart
    refine (congrFun (applyWrites_newBlocks tx) x).trans ?_
    unfold committedDisk
    split_ifs with home
    · exact inv.live x apart
    · rw [inv.logged x apart home]
      exact inv.settled.home x apart
  obtain ⟨written, settled⟩ := Log.commit_settles clean rfl tx
  have log' : (log₁.commit j.fresh).1 = { log₁ with lh := .empty } := Log.commit_fst log₁ j.fresh
  refine ⟨⟨?_, ?_, ?_, ?_, fun x apart => ?_, fun x _ _ => congrFun safe.symm x, ?_⟩, written,
    fun i => ?_⟩
  · exact (congrArg Log.start log').trans inv.start
  · exact (congrArg Log.size log').trans inv.size
  · exact (congrArg Log.outstanding log').trans (congrArg (· - 1) inv.count)
  · show BioSys.Ready { (log₁.commit j.fresh).1 with committing := false }
    rw [log']
    exact ⟨ready.fits, Nat.zero_le _, List.nodup_nil,
      fun _ member => absurd member List.not_mem_nil⟩
  · exact (ready.view_commit j.fresh (mt (inv.inLog x).mp apart)).trans (inv.live x apart)
  · refine ⟨start ▸ settled.header, fun x apart => ?_⟩
    exact (settled.home x (mt (inv.inLog x).mp apart)).trans
      ((target x apart).trans (congrFun safe.symm x))
  · obtain ⟨early, late⟩ := Log.commit_crash clean rfl tx i
    by_cases few : i ≤ log₁.lh.n
    · refine .inl (.of_place start size ⟨_, fun x apart => ?_, .inl (early few)⟩)
      exact inv.settled.home x (mt (inv.inLog x).mpr apart)
    · refine .inr (.of_place start size ⟨_, fun x apart => ?_,
        (late (Nat.lt_of_not_le few)).symm.imp id fun pending => ⟨_, _, _, tx, pending, rfl⟩⟩)
      exact (target x (mt (inv.inLog x).mpr apart)).trans (congrFun safe.symm x)

/-- **One call.** -/
theorem Inv.step (inv : Inv log d j) (nonempty : 0 < log.size) (taken : j.step e = .ok t) :
    Inv log (d.step e) t ∧ Atomic log d.safe (d.step e).safe j t := by
  have ready := inv.ready
  cases e with
  | beginOp =>
    simp only [Journal.step, Log.beginOp] at taken
    split_ifs at taken
    cases taken
    exact ⟨⟨inv.start, inv.size, congrArg (· + 1) inv.count,
      ⟨ready.1, ready.2, ready.3, ready.4⟩, inv.live, inv.logged, inv.settled⟩,
      inv.unwritten rfl rfl⟩
  | logWrite sector data =>
    simp only [Journal.step] at taken
    split_ifs at taken with outside
    split at taken
    · cases taken
    next log' grown =>
    cases taken
    have ready' := (ready.write outside grown).1
    obtain ⟨_, room, rfl⟩ := Log.write_eq_ok.mp grown
    have small : j.log.lh.n < LOGSIZE := lt_of_lt_of_le room (min_le_left _ _)
    refine ⟨⟨inv.start, inv.size, inv.count, ready', fun x apart => ?_, fun x apart unlogged => ?_,
      inv.settled⟩, inv.unwritten rfl rfl⟩
    · show (j.fresh.store sector.toNat data).view x = update d.live sector.toNat data x
      rw [Bufs.store_view]
      by_cases same : x = sector.toNat
      · rw [same, update_self, update_self]
      · rw [update_of_ne same, update_of_ne same]
        exact inv.live x apart
    · have other : ∀ z, z ∈ j.log.lh.sector ∨ z = sector → z.toNat ≠ x := fun z member same =>
        unlogged (List.mem_map.mpr ⟨z, (LogHeader.mem_absorb small z).mpr member, same⟩)
      refine (update_of_ne (other sector (.inr rfl)).symm _ _).trans
        (inv.logged x apart fun member => ?_)
      obtain ⟨z, logged, same⟩ := List.mem_map.mp member
      exact other z (.inl logged) same
  | endOp =>
    simp only [Journal.step, Log.endOp] at taken
    by_cases busy : j.log.committing = true
    · rw [if_pos busy] at taken
      cases taken
    by_cases last : j.log.outstanding - 1 = 0
    · rw [if_neg busy, if_pos last] at taken
      cases taken
      exact inv.commit nonempty (by rw [← inv.count]; omega)
    · rw [if_neg busy, if_neg last] at taken
      cases taken
      have more : d.outstanding ≠ 1 := by rw [← inv.count]; omega
      have safe : (d.step .endOp).safe = d.safe := if_neg more
      exact ⟨⟨inv.start, inv.size, congrArg (· - 1) inv.count,
        ⟨ready.1, ready.2, ready.3, ready.4⟩, inv.live, safe ▸ inv.logged, safe ▸ inv.settled⟩,
        inv.unwritten rfl rfl⟩

theorem Recovers.crashes {first : Nat → Block} (nonempty : log.InLog log.start)
    (recovers : Recovers log safe first) (crashed : Log.Crashes log first disk) :
    ∃ log' r, log.recoverFromLog (Bufs.boot disk) = some (log', r) ∧
      Log.Settled log safe r.disk := by
  obtain ⟨target, same, state⟩ := recovers
  have state' : Log.Settled log target disk ∨ ∃ lh vs old, Log.Transaction log lh vs ∧
      Log.Pending log lh vs old disk ∧ target = applyWrites old (Log.homeWrites lh.sector vs) := by
    rcases state with settled | ⟨lh, vs, old, tx, pending, rfl⟩
    · exact .inl (settled.crashes nonempty crashed)
    · exact (Log.Pending.crashes tx (.inl pending) crashed).symm.imp id fun still =>
        ⟨lh, vs, old, tx, still, rfl⟩
  obtain ⟨log', r, run, settled⟩ := Log.recover_settles nonempty state'
  exact ⟨log', r, run, settled.header, fun x apart => (settled.home x apart).trans (same x apart)⟩

end Keep

end Journal

/-- **A crash keeps whole operations.** In every run of the calls of any number of processes, let
the machine stop in the next call, after `i` of its disk writes, and let the recovery be cut off any
number of times. A completed recovery leaves an empty header, and outside the log exactly what was
safe before that call or, all at once, what is safe after it; the latter if all its writes reached
the disk. -/
theorem crash_keeps_operations {size nlog : Nat} (nonempty : 0 < nlog) (fits : nlog ≤ size)
    (word : size < 2 ^ 32) {disk : Nat → Block} (clean : (disk (size - nlog)).word 0 = 0)
    {es : List JournalOp} {j t : Journal}
    (run : es.foldlM Journal.step (Journal.boot size nlog disk) = .ok j) {e : JournalOp}
    (taken : j.step e = .ok t) (i : Nat) {survivor : Nat → Block}
    (crashed : Log.Crashes (Log.init size nlog)
      (applyWrites j.bufs.disk (t.bufs.writes.take i)) survivor) :
    ∃ log r, (Log.init size nlog).recoverFromLog (Bufs.boot survivor) = some (log, r) ∧
      (r.disk (size - nlog)).word 0 = 0 ∧ ∃ kept,
        (kept = es ∧ i < t.bufs.writes.length ∨ kept = es ++ [e]) ∧
        ∀ x, ¬ (Log.init size nlog).InLog x →
          r.disk x = (kept.foldl Durable.step (Durable.boot disk)).safe x := by
  have ready : BioSys.Ready (Log.init size nlog) := by
    refine ⟨?_, Nat.zero_le _, List.nodup_nil, fun _ member => absurd member List.not_mem_nil⟩
    show size - nlog + nlog < 2 ^ 32
    omega
  have inv : Journal.Inv (Log.init size nlog) (es.foldl Durable.step (Durable.boot disk)) j := by
    refine run_invariant (fun es j => Journal.Inv (Log.init size nlog)
      (es.foldl Durable.step (Durable.boot disk)) j)
      ⟨rfl, rfl, rfl, ready, fun _ _ => rfl, fun _ _ _ => rfl, clean, fun _ _ => rfl⟩ ?_ es j run
    intro es m e t inv taken
    rw [List.foldl_concat]
    exact (inv.step nonempty taken).1
  obtain ⟨inv', written, cut⟩ := inv.step nonempty taken
  have after : (es ++ [e]).foldl Durable.step (Durable.boot disk) = _ := List.foldl_concat ..
  have stops : ∃ kept, (kept = es ∧ i < t.bufs.writes.length ∨ kept = es ++ [e]) ∧
    Journal.Recovers (Log.init size nlog)
      (kept.foldl Durable.step (Durable.boot disk)).safe
        (applyWrites j.bufs.disk (t.bufs.writes.take i)) := by
    by_cases all : t.bufs.writes.length ≤ i
    · refine ⟨_, .inr rfl, ?_⟩
      rw [List.take_of_length_le all, written, after]
      exact .of_settled inv'.settled
    · rcases cut i with old | new
      · exact ⟨_, .inl ⟨rfl, Nat.lt_of_not_le all⟩, old⟩
      · exact ⟨_, .inr rfl, after ▸ new⟩
  obtain ⟨kept, which, recovers⟩ := stops
  obtain ⟨log, r, recovered, settled⟩ :=
    recovers.crashes ⟨le_rfl, Nat.lt_add_of_pos_right nonempty⟩ crashed
  exact ⟨log, r, recovered, settled.header, kept, which, settled.home⟩

/-- One operation that logs a block, all of whose writes reached the disk. -/
theorem crash_keeps_one_operation : ∃ j t log r,
    [.beginOp, .logWrite 40 (Block.zero.setWord 0 7)].foldlM Journal.step
      (Journal.boot 1024 30 fun _ => Block.zero) = .ok j ∧ j.step .endOp = .ok t ∧
    (Log.init 1024 30).recoverFromLog
      (Bufs.boot (applyWrites j.bufs.disk (t.bufs.writes.take t.bufs.writes.length))) =
      some (log, r) ∧
    r.disk 40 = Block.zero.setWord 0 7 := by
  obtain ⟨j, run⟩ : ∃ j, [.beginOp, .logWrite 40 (Block.zero.setWord 0 7)].foldlM Journal.step
    (Journal.boot 1024 30 fun _ => Block.zero) = .ok j := ⟨_, rfl⟩
  obtain ⟨t, taken⟩ : ∃ t, j.step .endOp = .ok t := by
    cases run
    exact ⟨_, rfl⟩
  obtain ⟨log, r, recovered, _, kept, which, blocks⟩ :=
    crash_keeps_operations (by decide) (by decide) (by decide)
    (Block.word_zero (by decide)) run taken t.bufs.writes.length .none
  refine ⟨j, t, log, r, run, taken, recovered, ?_⟩
  rw [which.resolve_left fun part => Nat.lt_irrefl _ part.2] at blocks
  exact blocks 40 (by unfold Log.InLog; decide)

end Xv6
