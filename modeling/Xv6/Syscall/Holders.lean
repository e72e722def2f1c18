/-
**Who holds the inodes.**

Between calls every reference to a slot of the inode cache is that of a current directory or of an
open file, and every reference to an open file is that of a descriptor: `System.Sound`. The name
space with its holders is `System.names`. What a call leaves is a collected name space: the cache
freed exactly the inodes that have no link and no holder.
-/

import Xv6.Syscall.Calls
import Mathlib.Data.Fintype.BigOperators

namespace Xv6

open Lib Finset Function

/-! ### Counting references -/

/-- The references of a process to a slot. -/
def UserProc.uses (q : UserProc) (s : Slot) : Nat := if q.cwd = some s then 1 else 0

/-- The descriptors of a process for an open file. -/
def UserProc.fds (q : UserProc) (f : Fslot) : Nat := ∑ fd, if q.ofile fd = some f then 1 else 0

/-- The references of an open file to a slot. -/
def File.uses (g : File) (s : Slot) : Nat := if 0 < g.ref ∧ g.type = .inode ∧ g.ip = s then 1 else 0

namespace System

/-- The references of current directories and open files to a slot. -/
def users (y : System) (s : Slot) : Nat := ∑ p, (y.proc p).uses s + ∑ f, (y.ftable f).uses s

/-- The descriptors for an open file. -/
def fds (y : System) (f : Fslot) : Nat := ∑ p, (y.proc p).fds f

/-- What the holders hold, if the slots have the inodes `num`. -/
def hold (y : System) (num : Slot → Nat) : Holder → Option Nat
  | .cwd p => (y.proc p).cwd.map num
  | .fd p fd => ((y.proc p).ofile fd).bind fun f =>
    if (y.ftable f).type = .inode then some (num (y.ftable f).ip) else none

/-- The inodes in the slots. -/
def inum (y : System) (s : Slot) : Nat := (y.kernel.icache s).inum

/-- **The name space and its holders.** -/
def names (y : System) : Names := ⟨y.kernel.fs.view.tree, y.hold y.inum⟩

/-- **Every reference is accounted for.** There are `n` inodes. -/
structure Sound (y : System) (n : Nat) : Prop where
  within : y.kernel.Within ⟨y.users, y.inum, n⟩ [] 0
  files : ∀ f, (y.ftable f).ref = y.fds f
  closed : ∀ f, (y.ftable f).ref = 0 → (y.ftable f).type = .none

/-- **Within a call** that made the tree `t` and has the references `refs`: the slots have the
inodes `num`, and one open file may have a reference that no descriptor has yet, or any more. -/
structure Mid (y : System) (num : Slot → Nat) (n : Nat) (refs : List Ref) (t : Tree)
    (extra : Option Fslot) : Prop where
  ends : y.kernel.Ends ⟨y.users, num, n⟩ refs t
  files : ∀ f, (y.ftable f).ref = y.fds f + if extra = some f then 1 else 0
  closed : ∀ f, (y.ftable f).ref = 0 → (y.ftable f).type = .none

section Counts

variable {y : System} {p : Fin NPROC} {fd : Fin NOFILE} {f : Fslot}

theorem users_setProc (y : System) (p : Fin NPROC) (q : UserProc) (s : Slot) :
    (y.setProc p q).users s + (y.proc p).uses s = y.users s + q.uses s := by
  have sum := sum_update_add (mem_univ p) (fun q : UserProc => q.uses s) y.proc q
  show ∑ x, (update y.proc p q x).uses s + ∑ f, (y.ftable f).uses s + _ = _
  unfold users
  omega

theorem users_setFile (y : System) (f : Fslot) (g : File) (s : Slot) :
    (y.setFile f g).users s + (y.ftable f).uses s = y.users s + g.uses s := by
  have sum := sum_update_add (mem_univ f) (fun g : File => g.uses s) y.ftable g
  show ∑ x, (y.proc x).uses s + ∑ x, (update y.ftable f g x).uses s + _ = _
  unfold users
  omega

theorem users_setOfile (y : System) (p : Fin NPROC) (fd : Fin NOFILE) (o : Option Fslot) :
    (y.setOfile p fd o).users = y.users := by
  funext s
  have count := y.users_setProc p { y.proc p with ofile := update (y.proc p).ofile fd o } s
  have same : ({ y.proc p with ofile := update (y.proc p).ofile fd o } : UserProc).uses s =
    (y.proc p).uses s := rfl
  rw [same] at count
  unfold setOfile
  omega

theorem fds_setOfile (y : System) (p : Fin NPROC) (fd : Fin NOFILE) (o : Option Fslot) (f : Fslot) :
    (y.setOfile p fd o).fds f + (if (y.proc p).ofile fd = some f then 1 else 0) =
      y.fds f + if o = some f then 1 else 0 := by
  have sum := sum_update_add (mem_univ p) (fun q : UserProc => q.fds f) y.proc
    { y.proc p with ofile := update (y.proc p).ofile fd o }
  have inner := sum_update_add (mem_univ fd) (fun x : Option Fslot => if x = some f then 1 else 0)
    (y.proc p).ofile o
  have here : ({ y.proc p with ofile := update (y.proc p).ofile fd o } : UserProc).fds f +
      (if (y.proc p).ofile fd = some f then 1 else 0) = (y.proc p).fds f + if o =
      some f then 1 else 0 := inner
  have there : (y.setOfile p fd o).fds f + (y.proc p).fds f = y.fds f +
      ({ y.proc p with ofile := update (y.proc p).ofile fd o } : UserProc).fds f := sum
  omega

theorem fds_setCwd (y : System) (p : Fin NPROC) (cwd : Option Slot) (f : Fslot) :
    (y.setProc p { y.proc p with cwd }).fds f = y.fds f := by
  have sum := sum_update_add (mem_univ p) (fun q : UserProc => q.fds f) y.proc { y.proc p with cwd }
  have same : ({ y.proc p with cwd } : UserProc).fds f = (y.proc p).fds f := rfl
  have there : (y.setProc p { y.proc p with cwd }).fds f + (y.proc p).fds f = y.fds f +
      ({ y.proc p with cwd } : UserProc).fds f := sum
  omega

theorem uses_pos {g : File} {s : Slot} : 0 < g.uses s ↔ 0 < g.ref ∧ g.type = .inode ∧ g.ip = s := by
  unfold File.uses
  split <;> simp_all

theorem fds_pos : 0 < y.fds f ↔ ∃ p fd, (y.proc p).ofile fd = some f := by
  unfold fds UserProc.fds
  simp only [sum_pos_iff, mem_univ, true_and]
  refine exists_congr fun p => exists_congr fun fd => ?_
  split <;> simp_all

theorem users_pos {s : Slot} : 0 < y.users s ↔
    (∃ p, (y.proc p).cwd = some s) ∨ ∃ f, 0 < (y.ftable f).uses s := by
  unfold users
  rw [Nat.add_pos_iff_pos_or_pos]
  simp only [sum_pos_iff, mem_univ, true_and]
  refine or_congr (exists_congr fun p => ?_) Iff.rfl
  unfold UserProc.uses
  split <;> simp_all

end Counts

/-! ### What is held -/

section Settle

variable {y : System} {n : Nat} {num : Slot → Nat} {t : Tree}

theorem held_iff (files : ∀ f, (y.ftable f).ref = y.fds f) (i : Nat) :
    (∃ h, y.hold num h = some i) ↔ ∃ s, 0 < y.users s ∧ num s = i := by
  constructor
  · rintro ⟨h, holds⟩
    cases h with
    | cwd p =>
      obtain ⟨s, current, rfl⟩ := Option.map_eq_some_iff.mp holds
      exact ⟨s, users_pos.mpr (.inl ⟨p, current⟩), rfl⟩
    | fd p fd =>
      obtain ⟨f, opened, inode⟩ := Option.bind_eq_some_iff.mp holds
      split at inode
      · next type =>
        cases inode
        refine ⟨(y.ftable f).ip, users_pos.mpr (.inr ⟨f, uses_pos.mpr ⟨?_, type, rfl⟩⟩), rfl⟩
        have := fds_pos.mpr ⟨p, fd, opened⟩
        rw [files]
        omega
      · cases inode
  · rintro ⟨s, user, rfl⟩
    rcases users_pos.mp user with ⟨p, current⟩ | ⟨f, file⟩
    · exact ⟨.cwd p, Option.map_eq_some_iff.mpr ⟨s, current, rfl⟩⟩
    · obtain ⟨used, type, rfl⟩ := uses_pos.mp file
      rw [files] at used
      obtain ⟨p, fd, opened⟩ := fds_pos.mp (show 0 < y.fds f by omega)
      exact ⟨.fd p fd, Option.bind_eq_some_iff.mpr ⟨f, opened, if_pos type⟩⟩

theorem hold_congr {num' : Slot → Nat} (files : ∀ f, (y.ftable f).ref = y.fds f)
    (same : ∀ s, 0 < y.users s → num' s = num s) : y.hold num' = y.hold num := by
  funext h
  cases h with
  | cwd p =>
    show (y.proc p).cwd.map num' = (y.proc p).cwd.map num
    cases current : (y.proc p).cwd with
    | none => rfl
    | some s => rw [Option.map_some, Option.map_some, same s (users_pos.mpr (.inl ⟨p, current⟩))]
  | fd p fd =>
    show ((y.proc p).ofile fd).bind _ = ((y.proc p).ofile fd).bind _
    cases opened : (y.proc p).ofile fd with
    | none => rfl
    | some f =>
      rw [Option.bind_some, Option.bind_some]
      split
      · next type =>
        have used : 0 < (y.ftable f).uses (y.ftable f).ip := by
          refine uses_pos.mpr ⟨?_, type, rfl⟩
          have := fds_pos.mpr ⟨p, fd, opened⟩
          rw [files]
          omega
        rw [same _ (users_pos.mpr (.inr ⟨f, used⟩))]
      · rfl

theorem Sound.mid (sound : y.Sound n) : y.Mid y.inum n [] y.kernel.fs.view.tree none where
  ends := sound.within.spells.ends
  files f := (sound.files f).trans (Int.add_zero _).symm
  closed := sound.closed

/-- When a call is over, its references are those of users again. -/
theorem Mid.settle (mid : y.Mid num n [] t none) :
    y.Sound n ∧ y.names = Names.collect ⟨t, y.hold num⟩ := by
  have within := mid.ends.within
  have files : ∀ f, (y.ftable f).ref = y.fds f := fun f => (mid.files f).trans (Int.add_zero _)
  have nums : ∀ s, 0 < y.users s → y.inum s = num s := within.nums
  have held : ∀ i, Names.Held ⟨t, y.hold num⟩ i ↔ ∃ s, 0 < y.users s ∧ num s = i := held_iff files
  refine ⟨⟨?_, files, mid.closed⟩, ?_⟩
  · exact { within with
      nums := fun s user => rfl
      held := fun s user => by
        show y.kernel.fs.view.Live (y.inum s)
        rw [nums s user]
        exact within.held s user }
  · obtain ⟨S, unlinked, tree⟩ := mid.ends.freed
    refine Names.ext ?_ (hold_congr files nums)
    show y.kernel.fs.view.tree = t.prune _
    -- A freed inode is not held; one without links that was not freed is held, or free in `t`
    -- already.
    have freed : ∀ i ∈ S, ¬ Names.Held ⟨t, y.hold num⟩ i := by
      intro i member held'
      obtain ⟨s, user, rfl⟩ := (held i).mp held'
      have live : y.kernel.fs.view.tree.Live (num s) := within.held s user
      rw [tree] at live
      exact (Tree.live_prune.mp live).1 member
    have empty : ∀ i, i ∉ S → t.nlink i = 0 → ¬ Names.Held ⟨t, y.hold num⟩ i → t.type i = 0 ∧
      t.ents i = [] := by
      intro i kept nolinks unheld
      have dead : ¬ y.kernel.fs.view.Live i := by
        intro live
        have count : (y.kernel.fs.view.din i).nlink = 0 := by
          rw [← View.nlink_tree live, tree, Tree.nlink_prune kept, nolinks]
        obtain ⟨s, user | absurdity, number, _⟩ := within.anchored i live count
        · exact unheld ((held i).mpr ⟨s, user, (nums s user).symm.trans number⟩)
        · cases absurdity
      have type : y.kernel.fs.view.tree.type i = 0 := not_not.mp dead
      have ents : y.kernel.fs.view.tree.ents i = [] := if_neg (by
        intro dir
        exact dead (by
          unfold View.Live
          rw [dir]
          decide))
      rw [tree] at type ents
      rw [Tree.ents_prune kept] at ents
      exact ⟨(if_neg kept).symm.trans type, ents⟩
    rw [tree]
    refine Tree.ext (funext fun i => ?_) (funext fun i => ?_) (funext fun i => ?_)
    all_goals
      by_cases member : i ∈ S
      · have both : i ∈ {i | t.nlink i = 0 ∧ ¬ Names.Held ⟨t, y.hold num⟩ i} :=
          ⟨unlinked i member, freed i member⟩
        exact (if_pos member).trans (if_pos both).symm
      · by_cases both : i ∈ {i | t.nlink i = 0 ∧ ¬ Names.Held ⟨t, y.hold num⟩ i}
        · refine (if_neg member).trans (Eq.trans ?_ (if_pos both).symm)
          first
            | exact (empty i member both.1 both.2).1
            | exact both.1
            | exact (empty i member both.1 both.2).2
        · exact (if_neg member).trans (if_neg both).symm

end Settle

end System

end Xv6
