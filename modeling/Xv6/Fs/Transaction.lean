/-
**Transactions.**

A quiet file system has an empty log and no operation under way. There `begin_op` is admitted at
once, and the `end_op` of the only operation commits and leaves the file system quiet again.

A commit copies every logged block through the log blocks. `Journaled`: the log is where the super
block says, and every sector it holds lies before it. Then a commit changes nothing before the log.
-/

import Xv6.Fs.View
import Xv6.Lib.Run

namespace Xv6

open Lib

/-- The two views differ in the blocks of the log only. -/
structure View.Agrees (v v' : View) : Prop where
  sb : v'.sb = v.sb
  bit : v'.bit = v.bit
  din : v'.din = v.din
  data : ∀ b, b < v.sb.logStart → v'.data b = v.data b

theorem View.Agrees.refl (v : View) : v.Agrees v := ⟨rfl, rfl, rfl, fun _ _ => rfl⟩

theorem View.Agrees.free {v v' : View} (agrees : v.Agrees v') : v'.free = v.free := by
  unfold View.free
  rw [agrees.sb, agrees.bit]

namespace Fs

/-- No operation is under way and the log is empty. -/
structure Quiet (s : Fs) : Prop where
  outstanding : s.log.outstanding = 0
  committing : s.log.committing = false
  header : s.log.lh = .empty

/-- The file system after `begin_op`. -/
def begun (s : Fs) : Fs := { s with log := { s.log with outstanding := 1 } }

/-- The file system after the last `end_op`. -/
def committed (s : Fs) : Fs :=
  { s with
    blk := (s.log.commit (Bufs.boot s.blk)).2.view
    log := { s.log with outstanding := 0, committing := false, lh := .empty } }

section Quiet

variable {s m : Fs} {sectors : List Nat}

theorem Quiet.beginOp_eq (quiet : s.Quiet) : s.beginOp = some s.begun := by
  obtain ⟨blk, ⟨start, size, _, _, _⟩, devsw, wrote⟩ := s
  obtain ⟨rfl, rfl, rfl⟩ := quiet
  rfl

/-- A transaction of its own has room for fewer sectors than the log holds. -/
theorem Quiet.room (quiet : s.Quiet) {more : Finset Nat} (small : more.card < s.log.capacity) :
    s.begun.Room more where
  inside := le_rfl
  room := by
    show s.log.lh.n + (more.filter fun x => UInt32.ofNat x ∉ s.log.lh.sector).card < s.log.capacity
    rw [quiet.header]
    exact (Nat.zero_add _).trans_lt ((Finset.card_filter_le _ _).trans_lt small)

theorem endOp_last (one : s.log.outstanding = 1) (idle : s.log.committing = false) :
    s.endOp = .ok s.committed := by
  obtain ⟨blk, ⟨start, size, _, _, lh⟩, devsw, wrote⟩ := s
  obtain rfl : _ = (1 : Int) := one
  obtain rfl : _ = false := idle
  have commit : ({ start, size, outstanding := 1 - 1, committing := true, lh } : Log).commit
      (Bufs.boot blk) = ({ start, size, outstanding := 0, committing := true, lh := .empty },
        (({ start, size, outstanding := 1, committing := false, lh } : Log).commit
          (Bufs.boot blk)).2) := by
    refine Prod.ext (Log.commit_fst _ _) ?_
    unfold Log.commit
    split <;> rfl
  have last : ({ start, size, outstanding := 1, committing := false, lh } : Log).endOp =
      .ok (true, { start, size, outstanding := 1 - 1, committing := true, lh }) := rfl
  unfold endOp
  simp only [last, Lib.ok_bind, commit]
  rfl

theorem Quiet.endOp_eq (quiet : s.Quiet) (logs : s.begun.Logs m sectors) :
    m.endOp = .ok m.committed :=
  endOp_last logs.outstanding (logs.committing.trans quiet.committing)

theorem quiet_committed (m : Fs) : m.committed.Quiet := ⟨rfl, rfl, rfl⟩

theorem view_begun (s : Fs) : s.begun.view = s.view := rfl

end Quiet

/-! ### What a commit leaves as it was -/

section Commit

variable {s s' : Fs}

/-- Blocks that are the same before the log spell the same files. -/
theorem view_agrees (layout : s.readsb.dataStart ≤ s.readsb.logStart)
    (same : ∀ b, b < s.readsb.logStart → s'.blk b = s.blk b) : s.view.Agrees s'.view := by
  have two := s.readsb.two_le_dataStart
  have sb : s'.readsb = s.readsb := by
    unfold readsb
    rw [same 1 (by omega)]
  refine ⟨sb, ?_, ?_, ?_⟩
  · funext b
    show (if b < s'.readsb.size.toNat then _ else true) = s.view.bit b
    rw [sb]
    by_cases inside : b < s.readsb.size.toNat
    · rw [if_pos inside, view_bit_of_lt inside,
        same _ ((Superblock.BBLOCK_lt_dataStart inside).trans_le layout)]
    · rw [if_neg inside]
      exact (if_neg inside).symm
  · funext i
    show (if i < s'.readsb.ninodes.toNat then s'.dinode i else _) = s.view.din i
    rw [sb]
    by_cases inside : i < s.readsb.ninodes.toNat
    · rw [if_pos inside, view_din_of_lt inside]
      unfold dinode
      rw [same _ ((Superblock.IBLOCK_lt_dataStart inside).trans_le layout)]
    · rw [if_neg inside]
      exact (if_neg inside).symm
  · intro b below
    show (if s'.readsb.dataStart ≤ b then s'.blk b else _) = s.view.data b
    rw [sb, same b below]
    rfl

/-- **A commit changes the blocks of the log only**, if only the last of the logged sectors may be
one of them. -/
theorem agrees_committed (start : s.log.start = s.readsb.logStart)
    (layout : s.readsb.dataStart ≤ s.readsb.logStart) (distinct : s.log.lh.sector.Nodup)
    (front : ∀ x ∈ s.log.lh.sector.dropLast, x.toNat < s.readsb.logStart) :
    s.view.Agrees s.committed.view := by
  refine view_agrees layout fun b before => ?_
  refine Log.view_commit (start ▸ before) distinct ?_ (Bufs.boot s.blk)
  intro i inside _ j earlier same
  have early : j < s.log.lh.sector.dropLast.length := by
    rw [List.length_dropLast]
    omega
  have member := List.get_mem s.log.lh.sector.dropLast ⟨j, early⟩
  rw [List.get_eq_getElem, List.getElem_dropLast] at member
  have := front _ member
  rw [List.get_eq_getElem] at same
  omega

/-- The log stands where the super block says and holds sectors before it, once each. -/
structure Journaled (s : Fs) : Prop where
  start : s.log.start = s.readsb.logStart
  distinct : s.log.lh.sector.Nodup
  below : ∀ x ∈ s.log.lh.sector, x.toNat < s.readsb.logStart

/-- A commit of sectors before the log changes nothing there. -/
theorem Journaled.agrees (journaled : s.Journaled)
    (layout : s.readsb.dataStart ≤ s.readsb.logStart) : s.view.Agrees s.committed.view :=
  agrees_committed journaled.start layout journaled.distinct fun x member =>
    journaled.below x (List.mem_of_mem_dropLast member)

theorem Journaled.committed (journaled : s.Journaled)
    (layout : s.readsb.dataStart ≤ s.readsb.logStart) : s.committed.Journaled where
  start := by
    have sb : s.committed.readsb = s.readsb := (journaled.agrees layout).sb
    rw [sb]
    exact journaled.start
  distinct := List.nodup_nil
  below _ absurdity := (List.not_mem_nil absurdity).elim

theorem Journaled.logs (journaled : s.Journaled) {sectors : List Nat} (logs : Logs s s' sectors)
    (sb : s'.readsb = s.readsb) (below : ∀ x ∈ sectors, x < s.readsb.logStart) : s'.Journaled where
  start := by rw [logs.start, sb, journaled.start]
  distinct := by
    rw [logs.sector]
    exact LogHeader.nodup_absorbAll journaled.distinct
  below x member := by
    rw [sb]
    rcases (logs.header x).mp member with old | new
    · exact journaled.below x old
    · obtain ⟨y, inside, rfl⟩ := List.mem_map.mp new
      have word : (UInt32.ofNat y).toNat ≤ y := by
        rw [UInt32.toNat_ofNat']
        exact Nat.mod_le _ _
      exact word.trans_lt (below y inside)

end Commit

end Fs

end Xv6
