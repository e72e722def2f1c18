/-
**Crash atomicity of the redo log.**

A crash of `commit()` or of `recover_from_log()` keeps the disk that a prefix of its writes leaves
behind and nothing else.

`Pending` and `Settled` are the two kinds of disk a crash can leave: the header lists a committed
transaction whose blocks stand in the log, or the header is empty. Each prefix of a recovery keeps a
pending disk pending or settles it, and keeps a settled disk settled.
-/

import Xv6.Log.Commit

namespace Xv6

open Lib Function

namespace Log

/-! ### The disks a crash can leave -/

/-- The sectors of the on-disk log: the header and the log blocks. -/
def InLog (log : Log) (x : Nat) : Prop := log.start ≤ x ∧ x < log.start + log.size

/-- **A transaction that fits the log**: distinct home sectors outside it, and their new blocks. -/
structure Transaction (log : Log) (lh : LogHeader) (vs : List Block) : Prop where
  length : vs.length = lh.sector.length
  room : lh.n < log.size
  distinct : lh.sector.Nodup
  outside : ∀ x ∈ lh.sector, ¬ log.InLog x.toNat

/-- Nothing is pending: the header is empty and the blocks outside the log are those of `target`. -/
structure Settled (log : Log) (target disk : Nat → Block) : Prop where
  header : (disk log.start).word 0 = 0
  home : ∀ x, ¬ log.InLog x → disk x = target x

/-- A transaction is committed and not yet known to be installed. -/
structure Pending (log : Log) (lh : LogHeader) (vs : List Block) (old disk : Nat → Block) :
    Prop where
  header : LogHeader.load (disk log.start) = some lh
  blocks : ∀ i (inside : i < vs.length), disk (log.start + i + 1) = vs.get ⟨i, inside⟩
  home : ∀ x, ¬ log.InLog x → x ∉ lh.sector.map UInt32.toNat → disk x = old x

section Crash

variable {log : Log} {lh : LogHeader} {vs : List Block} {old disk : Nat → Block}

namespace Transaction

theorem start_inLog (tx : Transaction log lh vs) : log.InLog log.start :=
  ⟨le_rfl, by have := tx.room; omega⟩

theorem block_inLog (tx : Transaction log lh vs) {i : Nat} (inside : i < vs.length) :
    log.InLog (log.start + i + 1) := by
  have room : lh.sector.length < log.size := tx.room
  have := tx.length
  exact ⟨by omega, by omega⟩

theorem homes (tx : Transaction log lh vs) :
    (homeWrites lh.sector vs).map Prod.fst = lh.sector.map UInt32.toNat := by
  unfold homeWrites
  rw [List.map_fst_zip]
  rw [List.length_map, tx.length]

theorem length_homeWrites (tx : Transaction log lh vs) :
    (homeWrites lh.sector vs).length = lh.n := by
  unfold homeWrites
  rw [List.length_zip, List.length_map, tx.length, min_self]
  rfl

theorem mem_homes (tx : Transaction log lh vs) {w : Nat × Block}
    (member : w ∈ homeWrites lh.sector vs) : w.1 ∈ lh.sector.map UInt32.toNat := by
  rw [← tx.homes]
  exact List.mem_map_of_mem member

theorem homeWrite_ne (tx : Transaction log lh vs) {w : Nat × Block}
    (member : w ∈ homeWrites lh.sector vs) {x : Nat} (inside : log.InLog x) : w.1 ≠ x := by
  obtain ⟨home, present, same⟩ := List.mem_map.mp (tx.mem_homes member)
  intro equal
  rw [equal] at same
  rw [← same] at inside
  exact tx.outside home present inside

theorem homes_nodup (tx : Transaction log lh vs) :
    ((homeWrites lh.sector vs).map Prod.fst).Nodup := by
  rw [tx.homes]
  exact tx.distinct.map fun _ _ => UInt32.toNat_inj.mp

theorem apart (tx : Transaction log lh vs) {x : UInt32} (member : x ∈ lh.sector) :
    x.toNat ≤ log.start + 0 ∨ log.start + 0 + lh.sector.length < x.toNat := by
  have outside := tx.outside x member
  have room : lh.sector.length < log.size := tx.room
  unfold InLog at outside
  omega

end Transaction

theorem Pending.performs (tx : Transaction log lh vs) (pending : Pending log lh vs old disk) :
    ∃ log' r, log.recoverFromLog (Bufs.boot disk) = some (log', r) ∧
      Performs (Bufs.boot disk) r (homeWrites lh.sector vs ++
        [(log.start, LogHeader.store (disk log.start) LogHeader.empty)]) := by
  have read : ((Bufs.boot disk).bread log.start).1 = disk log.start := Bufs.bread_fst _ _
  unfold recoverFromLog
  simp only [read, pending.header]
  refine ⟨_, _, rfl, ?_⟩
  have first := Performs.bread (Bufs.boot disk) log.start
  have install : Performs ((Bufs.boot disk).bread log.start).2
      (installFrom log.start 0 lh.sector ((Bufs.boot disk).bread log.start).2)
      (homeWrites lh.sector vs) := performs_installFrom _ tx.length
    (fun i inside => by
      rw [first.view, Nat.add_zero]
      exact pending.blocks i inside)
    (fun x member => tx.apart member)
  have head := performs_writeHead { log with lh := LogHeader.empty }
    (installFrom log.start 0 lh.sector ((Bufs.boot disk).bread log.start).2)
  have sameHead : (installFrom log.start 0 lh.sector ((Bufs.boot disk).bread log.start).2).view
      log.start = disk log.start := by
    rw [install.view, first.view, applyWrites_of_notMem]
    · rfl
    · intro w member
      exact tx.homeWrite_ne member tx.start_inLog
  rw [sameHead] at head
  exact (first.trans install).trans head

theorem Pending.install (tx : Transaction log lh vs) (pending : Pending log lh vs old disk)
    (j : Nat) : Pending log lh vs old (applyWrites disk ((homeWrites lh.sector vs).take j)) := by
  have untouched : ∀ {x}, log.InLog x →
      applyWrites disk ((homeWrites lh.sector vs).take j) x = disk x := by
    intro x inside
    refine applyWrites_of_notMem (fun w member => ?_) disk
    exact tx.homeWrite_ne (List.mem_of_mem_take member) inside
  refine ⟨?_, fun i inside => ?_, fun x outside other => ?_⟩
  · rw [untouched tx.start_inLog]
    exact pending.header
  · rw [untouched (tx.block_inLog inside)]
    exact pending.blocks i inside
  · rw [applyWrites_of_notMem, pending.home x outside other]
    rintro w member rfl
    exact other (tx.mem_homes (List.mem_of_mem_take member))

theorem Pending.settle (tx : Transaction log lh vs) (pending : Pending log lh vs old disk)
    {head : Block} (erased : head.word 0 = 0) :
    Settled log (applyWrites old (homeWrites lh.sector vs))
      (applyWrites disk (homeWrites lh.sector vs ++ [(log.start, head)])) := by
  rw [applyWrites_snoc]
  refine ⟨by rw [update_self]; exact erased, fun x outside => ?_⟩
  have notStart : x ≠ log.start := by
    rintro rfl
    exact outside tx.start_inLog
  rw [update_of_ne notStart]
  by_cases home : x ∈ (homeWrites lh.sector vs).map Prod.fst
  · obtain ⟨w, member, rfl⟩ := List.mem_map.mp home
    rw [applyWrites_of_mem tx.homes_nodup member, applyWrites_of_mem tx.homes_nodup member]
  · have other : ∀ w ∈ homeWrites lh.sector vs, w.1 ≠ x := by
      rintro w member rfl
      exact home (List.mem_map_of_mem member)
    rw [applyWrites_of_notMem other, applyWrites_of_notMem other, pending.home x outside]
    rw [← tx.homes]
    exact home

/-- **A recovery cut off anywhere** leaves the transaction pending or settles it. -/
theorem Pending.crash (tx : Transaction log lh vs) (pending : Pending log lh vs old disk)
    {head : Block} (erased : head.word 0 = 0) (j : Nat) :
    Pending log lh vs old
        (applyWrites disk ((homeWrites lh.sector vs ++ [(log.start, head)]).take j)) ∨
      Settled log (applyWrites old (homeWrites lh.sector vs))
        (applyWrites disk ((homeWrites lh.sector vs ++ [(log.start, head)]).take j)) := by
  by_cases partly : j ≤ (homeWrites lh.sector vs).length
  · left
    rw [List.take_append_of_le_length partly]
    exact pending.install tx j
  · right
    rw [List.take_of_length_le (by rw [List.length_append, List.length_singleton]; omega)]
    exact pending.settle tx erased

theorem Settled.performs {target : Nat → Block} (settled : Settled log target disk) :
    ∃ log' r, log.recoverFromLog (Bufs.boot disk) = some (log', r) ∧
      Performs (Bufs.boot disk) r
        [(log.start, LogHeader.store (disk log.start) LogHeader.empty)] := by
  have read : ((Bufs.boot disk).bread log.start).1 = disk log.start := Bufs.bread_fst _ _
  unfold recoverFromLog
  simp only [read, LogHeader.load_of_zero settled.header]
  refine ⟨_, _, rfl, ?_⟩
  have first := Performs.bread (Bufs.boot disk) log.start
  have head := performs_writeHead { log with lh := LogHeader.empty }
    ((Bufs.boot disk).bread log.start).2
  rw [first.view] at head
  exact first.trans head

theorem Settled.crash {target : Nat → Block} (settled : Settled log target disk)
    (nonempty : log.InLog log.start) {head : Block} (erased : head.word 0 = 0) (j : Nat) :
    Settled log target (applyWrites disk ([(log.start, head)].take j)) := by
  cases j with
  | zero => exact settled
  | succ j =>
    rw [List.take_of_length_le (by rw [List.length_singleton]; omega)]
    refine ⟨by rw [applyWrites_cons, applyWrites_nil, update_self]; exact erased,
      fun x outside => ?_⟩
    rw [applyWrites_cons, applyWrites_nil, update_of_ne, settled.home x outside]
    rintro rfl
    exact outside nonempty

/-! ### Commit, crash, recover -/

/-- The blocks `commit()` writes: what `bread` returns for the logged sectors. -/
def newBlocks (log : Log) (s : Bufs) : List Block := log.lh.sector.map fun x => s.view x.toNat

/-- **The writes of `commit()`**: the log blocks, the header, the home blocks, the erased header. -/
theorem performs_commit {s : Bufs} (some' : 0 < log.lh.n)
    (tx : Transaction log log.lh (log.newBlocks s)) :
    ∃ committed erased : Block, LogHeader.load committed = some log.lh ∧ erased.word 0 = 0 ∧
      Performs s (log.commit s).2
        (logWrites log.start 0 (log.newBlocks s) ++
          ((log.start, committed) :: (homeWrites log.lh.sector (log.newBlocks s) ++
            [(log.start, erased)]))) := by
  have write : Performs s (log.writeLog s) (logWrites log.start 0 (log.newBlocks s)) :=
    performs_writeLogFrom s fun x member => tx.apart member
  have head := performs_writeHead log (log.writeLog s)
  set committed := LogHeader.store ((log.writeLog s).view log.start) log.lh
  have install : Performs (log.writeHead (log.writeLog s))
      (log.installTrans (log.writeHead (log.writeLog s)))
      (homeWrites log.lh.sector (log.newBlocks s)) := by
    refine performs_installFrom _ tx.length (fun i inside => ?_) fun x member => tx.apart member
    rw [head.view, write.view, applyWrites_of_notMem, applyWrites_logWrites]
    intro w member
    rw [List.mem_singleton] at member
    rw [member]
    dsimp only
    omega
  have erase := performs_writeHead { log with lh := LogHeader.empty }
    (log.installTrans (log.writeHead (log.writeLog s)))
  refine ⟨committed, LogHeader.store
    ((log.installTrans (log.writeHead (log.writeLog s))).view log.start) LogHeader.empty,
    LogHeader.load_store _ _, LogHeader.word_store_empty _, ?_⟩
  have chain := ((write.trans head).trans install).trans erase
  unfold commit
  rw [if_pos some']
  rw [List.append_assoc, List.append_assoc] at chain
  exact chain

theorem commit_crash {s : Bufs} (clean : (s.disk log.start).word 0 = 0) (fresh : s.writes = [])
    (tx : Transaction log log.lh (log.newBlocks s)) (k : Nat) :
    (k ≤ log.lh.n → Settled log s.disk (applyWrites s.disk ((log.commit s).2.writes.take k))) ∧
    (log.lh.n < k →
      Pending log log.lh (log.newBlocks s) s.disk
        (applyWrites s.disk ((log.commit s).2.writes.take k)) ∨
      Settled log (applyWrites s.disk (homeWrites log.lh.sector (log.newBlocks s)))
        (applyWrites s.disk ((log.commit s).2.writes.take k))) := by
  by_cases none : log.lh.n = 0
  · have noWrites : (log.commit s).2.writes = [] := by
      unfold commit
      rw [if_neg (by omega)]
      exact fresh
    have noHomes : homeWrites log.lh.sector (log.newBlocks s) = [] := by
      rw [← List.length_eq_zero_iff, tx.length_homeWrites, none]
    rw [noWrites, noHomes, List.take_nil, applyWrites_nil]
    exact ⟨fun _ => ⟨clean, fun _ _ => rfl⟩, fun _ => Or.inr ⟨clean, fun _ _ => rfl⟩⟩
  · obtain ⟨committed, erased, loads, erasedZero, run⟩ := performs_commit (by omega) tx
    have length : (logWrites log.start 0 (log.newBlocks s)).length = log.lh.n := by
      rw [length_logWrites, tx.length]
      rfl
    have inLog : ∀ w ∈ logWrites log.start 0 (log.newBlocks s),
        log.start < w.1 ∧ log.InLog w.1 := by
      intro w member
      have bounds := mem_logWrites member
      have room : log.lh.sector.length < log.size := tx.room
      rw [tx.length] at bounds
      exact ⟨by omega, by omega, by omega⟩
    rw [run.issued, fresh, List.nil_append]
    refine ⟨fun early => ?_, fun late => ?_⟩
    · -- only log blocks were written: the header still says that nothing is committed
      rw [List.take_append_of_le_length (by omega)]
      refine ⟨?_, fun x outside => ?_⟩
      · rw [applyWrites_of_notMem]
        · exact clean
        · intro w member
          have := (inLog w (List.mem_of_mem_take member)).1
          omega
      · refine applyWrites_of_notMem (fun w member => ?_) _
        rintro rfl
        exact outside (inLog w (List.mem_of_mem_take member)).2
    · -- the header reached the disk: the rest of commit does what a recovery does
      have pending : Pending log log.lh (log.newBlocks s) s.disk
          (applyWrites s.disk (logWrites log.start 0 (log.newBlocks s) ++
            [(log.start, committed)])) := by
        rw [applyWrites_snoc]
        refine ⟨by rw [update_self]; exact loads, fun i inside => ?_,
          fun x outside _ => ?_⟩
        · rw [update_of_ne (by omega)]
          have := applyWrites_logWrites log.start 0 s.disk inside
          rwa [Nat.add_zero] at this
        · rw [update_of_ne, applyWrites_of_notMem]
          · rintro w member rfl
            exact outside (inLog w member).2
          · rintro rfl
            exact outside tx.start_inLog
      rw [List.append_cons, List.take_append, List.take_of_length_le
        (by rw [List.length_append, List.length_singleton]; omega), applyWrites_append]
      exact pending.crash tx erasedZero _

/-- **Recovery, interrupted any number of times.** Each time the machine reboots on what is left and
starts over. -/
inductive Crashes (log : Log) (first : Nat → Block) : (Nat → Block) → Prop
  | none : Crashes log first first
  | again {disk : Nat → Block} {log' : Log} {r : Bufs} (before : Crashes log first disk)
      (recover : log.recoverFromLog (Bufs.boot disk) = some (log', r)) (j : Nat) :
      Crashes log first (applyWrites disk (r.writes.take j))

theorem Settled.crashes {target first : Nat → Block} (settled : Settled log target first)
    (nonempty : log.InLog log.start) (crashed : Crashes log first disk) :
    Settled log target disk := by
  induction crashed with
  | none => exact settled
  | again before recover j ih =>
    obtain ⟨_, _, run, performs⟩ := ih.performs
    rw [recover] at run
    cases run
    rw [performs.issued, show (Bufs.boot _).writes = [] from rfl, List.nil_append]
    exact ih.crash nonempty (LogHeader.word_store_empty _) j

theorem Pending.crashes {first : Nat → Block} (tx : Transaction log lh vs)
    (state : Pending log lh vs old first ∨
      Settled log (applyWrites old (homeWrites lh.sector vs)) first)
    (crashed : Crashes log first disk) :
    Pending log lh vs old disk ∨ Settled log (applyWrites old (homeWrites lh.sector vs)) disk := by
  induction crashed with
  | none => exact state
  | again before recover j ih =>
    rcases ih with pending | settled
    · obtain ⟨_, _, run, performs⟩ := pending.performs tx
      rw [recover] at run
      cases run
      rw [performs.issued, show (Bufs.boot _).writes = [] from rfl, List.nil_append]
      exact pending.crash tx (LogHeader.word_store_empty _) j
    · exact Or.inr (settled.crashes tx.start_inLog (.again .none recover j))

theorem recover_settles {target : Nat → Block} (nonempty : log.InLog log.start)
    (state : Settled log target disk ∨
      ∃ lh vs old, Transaction log lh vs ∧ Pending log lh vs old disk ∧
        target = applyWrites old (homeWrites lh.sector vs)) :
    ∃ log' r, log.recoverFromLog (Bufs.boot disk) = some (log', r) ∧ Settled log target r.disk := by
  rcases state with settled | ⟨lh, vs, old, tx, pending, rfl⟩
  · obtain ⟨log', r, run, performs⟩ := settled.performs
    refine ⟨log', r, run, ?_⟩
    rw [performs.disk]
    exact settled.crash nonempty (LogHeader.word_store_empty _) 1
  · obtain ⟨log', r, run, performs⟩ := pending.performs tx
    refine ⟨log', r, run, ?_⟩
    rw [performs.disk]
    exact pending.settle tx (LogHeader.word_store_empty _)

end Crash

end Log

/-- The blocks a completed commit leaves: the cached contents of the logged sectors, the disk
elsewhere. -/
def committedDisk (log : Log) (disk : Nat → Block) (cache : Nat → Option Block) (x : Nat) : Block :=
  if x ∈ log.lh.sector.map UInt32.toNat then (cache x).getD (disk x) else disk x

theorem applyWrites_newBlocks {log : Log} {disk : Nat → Block} {cache : Nat → Option Block}
    (tx : log.Transaction log.lh (log.newBlocks ⟨disk, cache, []⟩)) :
    applyWrites disk (Log.homeWrites log.lh.sector (log.newBlocks ⟨disk, cache, []⟩)) =
      committedDisk log disk cache := by
  funext x
  unfold committedDisk
  by_cases home : x ∈ log.lh.sector.map UInt32.toNat
  · rw [if_pos home]
    obtain ⟨sector, member, rfl⟩ := List.mem_map.mp home
    have write : (sector.toNat, (cache sector.toNat).getD (disk sector.toNat)) ∈
        Log.homeWrites log.lh.sector (log.newBlocks ⟨disk, cache, []⟩) := by
      unfold Log.homeWrites Log.newBlocks
      rw [List.zip_map']
      exact List.mem_map.mpr ⟨sector, member, rfl⟩
    exact applyWrites_of_mem tx.homes_nodup write disk
  · rw [if_neg home]
    refine applyWrites_of_notMem (fun w member => ?_) disk
    rintro rfl
    exact home (tx.mem_homes member)

/-- **Crash atomicity of the redo log.** Let the on-disk header have `n = 0`, and let the in-memory
header list fewer than `log.size` distinct sectors outside the log. Whatever number `k` of the
writes of `commit()` reached the disk, and however often the recovery after that was cut off in its
turn, a completed recovery leaves every block outside the log as it was before the commit when
`k ≤ n`, and as committed as soon as the first `write_head`, the write after the `n` log blocks,
reached the disk. -/
theorem commit_crash_atomic (log : Log) (disk : Nat → Block) (cache : Nat → Option Block)
    (clean : (disk log.start).word 0 = 0) (room : log.lh.n < log.size)
    (distinct : log.lh.sector.Nodup) (outside : ∀ x ∈ log.lh.sector, ¬ log.InLog x.toNat)
    (k : Nat) (survivor : Nat → Block) (crashed : Log.Crashes log
      (applyWrites disk ((log.commit ⟨disk, cache, []⟩).2.writes.take k)) survivor) :
    ∃ log' r, log.recoverFromLog (Bufs.boot survivor) = some (log', r) ∧
      (k ≤ log.lh.n → ∀ x, ¬ log.InLog x → r.disk x = disk x) ∧
      (log.lh.n < k → ∀ x, ¬ log.InLog x → r.disk x = committedDisk log disk cache x) := by
  have tx : log.Transaction log.lh (log.newBlocks ⟨disk, cache, []⟩) :=
    ⟨by unfold Log.newBlocks; rw [List.length_map], room, distinct, outside⟩
  obtain ⟨early, late⟩ := Log.commit_crash (s := ⟨disk, cache, []⟩) clean rfl tx k
  by_cases reached : log.lh.n < k
  · have state := Log.Pending.crashes tx (late reached) crashed
    obtain ⟨log', r, run, settled⟩ := Log.recover_settles tx.start_inLog
      (state.symm.imp id fun pending => ⟨_, _, _, tx, pending, rfl⟩)
    refine ⟨log', r, run, fun few => absurd reached (not_lt.mpr few), fun _ x apart => ?_⟩
    rw [settled.home x apart]
    exact congrFun (applyWrites_newBlocks tx) x
  · have state := (early (not_lt.mp reached)).crashes tx.start_inLog crashed
    obtain ⟨log', r, run, settled⟩ := Log.recover_settles tx.start_inLog (Or.inl state)
    exact ⟨log', r, run, fun _ => settled.home, fun many => absurd many reached⟩

/-- The log of `mkfs` with two logged sectors. -/
def twoLogged : Log := { Log.init 1024 30 with lh := ⟨[40, 41], Nat.le_of_ble_eq_true rfl⟩ }

/-- The disk when the machine stops in a commit of the two sectors, their header just written. -/
def stopped : Nat → Block :=
  applyWrites (fun _ => Block.zero) ((twoLogged.commit
    ⟨fun _ => Block.zero, fun _ => some (Block.zero.setWord 0 7), []⟩).2.writes.take 3)

/-- Two logged sectors, the header written, and a recovery cut off after it installed the first: the
next recovery installs both. -/
theorem commit_crash_two_blocks : ∃ log₁ r₁ log₂ r₂,
    twoLogged.recoverFromLog (Bufs.boot stopped) = some (log₁, r₁) ∧
    twoLogged.recoverFromLog (Bufs.boot (applyWrites stopped (r₁.writes.take 1))) =
      some (log₂, r₂) ∧ r₂.disk 40 = Block.zero.setWord 0 7 ∧
    r₂.disk 41 = Block.zero.setWord 0 7 := by
  have zero : (Block.zero).word 0 = 0 := Block.word_zero (by decide)
  have outside : ∀ x ∈ twoLogged.lh.sector, ¬ twoLogged.InLog x.toNat := by
    intro x member
    rcases List.mem_pair.mp member with rfl | rfl
    · exact fun inLog => absurd inLog.1 (show ¬ 994 ≤ 40 by decide)
    · exact fun inLog => absurd inLog.1 (show ¬ 994 ≤ 41 by decide)
  have atomic := commit_crash_atomic twoLogged (fun _ => Block.zero)
    (fun _ => some (Block.zero.setWord 0 7)) zero (by decide) (by decide) outside 3
  obtain ⟨log₁, r₁, first, _⟩ := atomic _ .none
  obtain ⟨log₂, r₂, second, _, committed⟩ := atomic _ (.again .none first 1)
  refine ⟨log₁, r₁, log₂, r₂, first, second, ?_, ?_⟩
  · rw [committed (by decide) 40 (outside 40 (by decide))]
    rfl
  · rw [committed (by decide) 41 (outside 41 (by decide))]
    rfl

end Xv6
