/-
**The log's bookkeeping: `begin_op`, `log_write` and `end_op`.**

`struct log` and its header, and the three calls as functions on it. A header is the used part
`sector[0..n)` of the array; that it fits the array is part of the type. `Log.beginOp` is one pass
of the loop of `begin_op` (it answers `none` where the source sleeps), `Log.write` is `log_write`,
`Log.endOp` the first critical section of `end_op` (it answers whether to commit).
-/

import Mathlib.Data.Finset.Card
import Xv6.Param

namespace Xv6

/-- `struct logheader`: the sectors of the current transaction, in the order they were logged. -/
@[ext] structure LogHeader where
  sector : List UInt32
  fits : sector.length ≤ LOGSIZE
  deriving DecidableEq

namespace LogHeader

/-- The field `n`. -/
def n (lh : LogHeader) : Nat := lh.sector.length

/-- The header with `n = 0`. -/
def empty : LogHeader := ⟨[], Nat.zero_le _⟩

/-- The loop of `log_write`: a sector already logged keeps its slot, a new one takes the next. -/
def absorb (lh : LogHeader) (sector : UInt32) (room : lh.n < LOGSIZE) : LogHeader :=
  if sector ∈ lh.sector then lh
  else ⟨lh.sector ++ [sector], by rw [List.length_append, List.length_singleton]; exact room⟩

/-- The logged sectors after `more` were logged one after the other. -/
def absorbAll (sectors more : List UInt32) : List UInt32 :=
  more.foldl (fun logged x => if x ∈ logged then logged else logged ++ [x]) sectors

@[simp] theorem n_empty : empty.n = 0 := rfl

@[simp] theorem sector_empty : empty.sector = [] := rfl

theorem sector_absorb {lh : LogHeader} {sector : UInt32} (room : lh.n < LOGSIZE) :
    (lh.absorb sector room).sector = absorbAll lh.sector [sector] := by
  unfold absorb absorbAll
  rw [List.foldl_cons, List.foldl_nil]
  split <;> rfl

theorem absorbAll_append (sectors first second : List UInt32) :
    absorbAll sectors (first ++ second) = absorbAll (absorbAll sectors first) second :=
  List.foldl_append ..

theorem mem_absorbAll {sectors more : List UInt32} (x : UInt32) :
    x ∈ absorbAll sectors more ↔ x ∈ sectors ∨ x ∈ more := by
  unfold absorbAll
  induction more generalizing sectors with
  | nil => simp
  | cons y more ih =>
    rw [List.foldl_cons, ih, List.mem_cons]
    split
    · next known =>
      constructor
      · rintro (old | new)
        · exact .inl old
        · exact .inr (.inr new)
      · rintro (old | rfl | new)
        · exact .inl old
        · exact .inl known
        · exact .inr new
    · rw [List.mem_append, List.mem_singleton, or_assoc]

theorem nodup_absorbAll {sectors more : List UInt32} (distinct : sectors.Nodup) :
    (absorbAll sectors more).Nodup := by
  unfold absorbAll
  induction more generalizing sectors with
  | nil => exact distinct
  | cons y more ih =>
    rw [List.foldl_cons]
    apply ih
    split
    · exact distinct
    · next fresh =>
        exact distinct.append (List.nodup_singleton _) (List.disjoint_singleton.mpr fresh)

theorem mem_absorb {lh : LogHeader} {sector : UInt32} (room : lh.n < LOGSIZE) (x : UInt32) :
    x ∈ (lh.absorb sector room).sector ↔ x ∈ lh.sector ∨ x = sector := by
  rw [sector_absorb, mem_absorbAll, List.mem_singleton]

theorem nodup_absorb {lh : LogHeader} {sector : UInt32} (room : lh.n < LOGSIZE)
    (distinct : lh.sector.Nodup) : (lh.absorb sector room).sector.Nodup := by
  rw [sector_absorb]
  exact nodup_absorbAll distinct

theorem n_absorb_known {lh : LogHeader} {sector : UInt32} (room : lh.n < LOGSIZE)
    (known : sector ∈ lh.sector) : (lh.absorb sector room).n = lh.n := by
  unfold absorb
  rw [if_pos known]

theorem n_absorb_fresh {lh : LogHeader} {sector : UInt32} (room : lh.n < LOGSIZE)
    (fresh : sector ∉ lh.sector) : (lh.absorb sector room).n = lh.n + 1 := by
  unfold absorb
  rw [if_neg fresh]
  exact List.length_append

end LogHeader

/-- `struct log` without its lock and device number. -/
@[ext] structure Log where
  start : Nat
  size : Nat
  outstanding : Int
  committing : Bool
  lh : LogHeader
  deriving DecidableEq

namespace Log

/-- The log as `initlog` leaves it, for a superblock with `nlog` log blocks at the end of `size`
blocks; `recover_from_log` ends with `n = 0`. -/
def init (size nlog : Nat) : Log where
  start := size - nlog
  size := nlog
  outstanding := 0
  committing := false
  lh := LogHeader.empty

/-- One pass of the loop of `begin_op`: `none` means `sleep(&log, &log.lock)`. -/
def beginOp (log : Log) : Option Log :=
  if log.committing then none
  else if log.lh.n + (log.outstanding + 1) * MAXOPBLOCKS > LOGSIZE then none
  else some { log with outstanding := log.outstanding + 1 }

/-- `log_write`, without the buffer flag. -/
def write (log : Log) (sector : UInt32) : Except Panic Log :=
  if full : LOGSIZE ≤ log.lh.n ∨ log.size - 1 ≤ log.lh.n then .error .tooBigATransaction
  else if log.outstanding < 1 then .error .logWriteOutsideOfTrans
  else .ok { log with lh := log.lh.absorb sector (by omega) }

/-- `end_op` up to the release of the lock: the flag is `do_commit`. -/
def endOp (log : Log) : Except Panic (Bool × Log) :=
  let log := { log with outstanding := log.outstanding - 1 }
  if log.committing then .error .logCommitting
  else if log.outstanding = 0 then .ok (true, { log with committing := true })
  else .ok (false, log)

/-- The number of log blocks `log_write` is willing to fill. -/
def capacity (log : Log) : Nat := min LOGSIZE (log.size - 1)

/-- **`log_write` succeeds** exactly inside a transaction with a free slot, and only the header
changes. -/
theorem write_eq_ok {log log' : Log} {sector : UInt32} :
    log.write sector = .ok log' ↔
      1 ≤ log.outstanding ∧
        ∃ room : log.lh.n < log.capacity,
          log' =
          { log with lh := log.lh.absorb sector (lt_of_lt_of_le room (min_le_left _ _)) } := by
  unfold write capacity
  by_cases full : LOGSIZE ≤ log.lh.n ∨ log.size - 1 ≤ log.lh.n
  · rw [dif_pos full]
    constructor
    · intro absurdity
      cases absurdity
    · rintro ⟨_, room, _⟩
      omega
  · rw [dif_neg full]
    by_cases outside : log.outstanding < 1
    · rw [if_pos outside]
      constructor
      · intro absurdity
        cases absurdity
      · rintro ⟨inside, _⟩
        omega
    · rw [if_neg outside]
      constructor
      · intro done
        cases done
        exact ⟨by omega, by omega, rfl⟩
      · rintro ⟨_, _, rfl⟩
        rfl

/-- **`log_write` panics with `too big a transaction`** exactly when no slot is free; it does not
look whether the sector would be absorbed. -/
theorem write_eq_tooBig {log : Log} {sector : UInt32} :
    log.write sector = .error .tooBigATransaction ↔ log.capacity ≤ log.lh.n := by
  unfold write capacity
  by_cases full : LOGSIZE ≤ log.lh.n ∨ log.size - 1 ≤ log.lh.n
  · rw [dif_pos full]
    exact ⟨fun _ => by omega, fun _ => rfl⟩
  · rw [dif_neg full]
    constructor
    · intro absurdity
      split at absurdity <;> cases absurdity
    · intro small
      omega

theorem write_error {log : Log} {sector : UInt32} {panic : Panic}
    (fails : log.write sector = .error panic) :
    panic = .tooBigATransaction ∨ panic = .logWriteOutsideOfTrans ∧ log.outstanding < 1 := by
  unfold write at fails
  by_cases full : LOGSIZE ≤ log.lh.n ∨ log.size - 1 ≤ log.lh.n
  · rw [dif_pos full] at fails
    cases fails
    exact Or.inl rfl
  · rw [dif_neg full] at fails
    by_cases outside : log.outstanding < 1
    · rw [if_pos outside] at fails
      cases fails
      exact Or.inr ⟨rfl, outside⟩
    · rw [if_neg outside] at fails
      cases fails

theorem endOp_error {log : Log} {panic : Panic} (fails : log.endOp = .error panic) :
    log.committing = true := by
  by_contra quiet
  have quiet' : log.committing = false := by simpa using quiet
  by_cases last : log.outstanding - 1 = 0
  · simp [endOp, quiet', last] at fails
  · simp [endOp, quiet', last] at fails

end Log

end Xv6
