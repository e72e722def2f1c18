/-
**The numbers of inodes stay in range, and inodes keep their types.**

Whatever the counts of links are, a call puts into entries only the numbers of inodes that are
there, and changes no type of an inode that is in use before and after. A call that neither adds an
entry nor clears one leaves the entries of every directory.
-/

import Xv6.Kernel.Walk
import Xv6.Names.Machine

namespace Xv6

open Lib

namespace Tree

variable {t t' : Tree} {n cwd d i : Nat} {r : Option Nat} {op : NameOp}

theorem Ranged.attach (ranged : t.Ranged n) (attach : t.Attach n d i r t') : t'.Ranged n := by
  have number : i < n := by
    cases attach with
    | file _ number => exact number.2
    | dir _ number => exact number.2
    | link _ live => exact ranged.live i live
  have below : d < n := ranged.live d attach.dir'.live
  refine ⟨ranged.small, ranged.root, fun j live => ?_, ?_⟩
  · rcases (attach.live_iff j).mp live with old | rfl
    · exact ranged.live j old
    · exact number
  · rintro j _ ⟨de, member, used, rfl⟩
    have old : de ∈ t.ents j → de.inum.toNat < n :=
      fun member => ranged.leads j _ ⟨de, member, used, rfl⟩
    by_cases here : j = d
    · subst here
      rcases attach.mem_ents (number.trans_le ranged.small) member with kept | new
      · exact old kept
      · exact new ▸ number
    · by_cases there : j ≠ i ∨ t.Live j
      · rw [attach.ents there here] at member
        exact old member
      · obtain ⟨same, free⟩ := not_or.mp there
        obtain rfl := not_not.mp same
        rcases attach.mem_fresh free ranged.small below member with self | up
        · exact self ▸ number
        · exact up ▸ below

/-- A change of names puts only numbers in range into entries. -/
theorem Ranged.change (ranged : t.Ranged n) (change : t.Change n cwd op t') : t'.Ranged n := by
  cases change with
  | same => exact ranged
  | attach attach => exact ranged.attach attach
  | unlink _ _ at' =>
    refine ⟨ranged.small, ranged.root, fun j live => ?_, ?_⟩
    · unfold Live at live
      rw [type_unlink] at live
      exact ranged.live j live
    · rintro j _ ⟨de, member, used, rfl⟩
      rw [ents_unlink] at member
      rcases mem_clear at' member with kept | rfl
      · exact ranged.leads j _ ⟨de, kept, used, rfl⟩
      · exact absurd rfl used

theorem Ranged.prune (ranged : t.Ranged n) (S : Set Nat) : (t.prune S).Ranged n := by
  refine ⟨ranged.small, ranged.root, fun j live => ranged.live j (live_prune.mp live).2, ?_⟩
  rintro j _ ⟨de, member, used, rfl⟩
  by_cases freed : j ∈ S
  · rw [show (t.prune S).ents j = [] from if_pos freed] at member
    cases member
  · rw [ents_prune freed] at member
    exact ranged.leads j _ ⟨de, member, used, rfl⟩

theorem Ranged.freed (ranged : t.Ranged n) (freed : t.Freed t') : t'.Ranged n := by
  obtain ⟨S, _, rfl⟩ := freed
  exact ranged.prune S

end Tree

/-- The call adds an entry with `dirlink`, or clears one. -/
def NameOp.edits : NameOp → Bool
  | .link _ _ | .unlink _ | .mkdir _ | .mknod _ _ _ => true
  | .open _ omode => omode &&& O_CREATE != 0
  | _ => false

namespace Names

variable {a b : Names} {n i d : Nat} {e : Fin NPROC × NameOp}

theorem Step.ranged (step : a.Step n e b) (ranged : a.tree.Ranged n) : b.tree.Ranged n := by
  unfold Step at step
  split at step
  · exact step ▸ ranged
  · obtain ⟨c, edits, rfl⟩ := step
    exact (ranged.change edits.change).prune _

theorem Step.type (step : a.Step n e b) (live : a.tree.Live i) (kept : b.tree.Live i) :
    b.tree.type i = a.tree.type i := by
  unfold Step at step
  split at step
  · rw [step]
  · obtain ⟨c, edits, rfl⟩ := step
    rw [← edits.change.type live]
    exact if_neg (Tree.live_prune.mp kept).1

theorem Edits.tree_of_quiet {p : Fin NPROC} {cwd : Nat} {op : NameOp} (edits : a.Edits n p cwd b op)
    (quiet : op.edits = false) : b.tree = a.tree := by
  cases op with
  | link => cases quiet
  | unlink => cases quiet
  | mkdir => cases quiet
  | mknod => cases quiet
  | «open» path omode =>
    obtain ⟨_, _, _, finds⟩ := edits
    rw [if_neg (by simpa [NameOp.edits] using quiet)] at finds
    exact finds.1
  | close => exact edits.1
  | chdir => exact edits.1
  | fork => exact edits.1
  | exit => exact edits.1

/-- A step that edits no name leaves the entries of every directory. -/
theorem Step.dirs (step : a.Step n e b) (quiet : e.2.edits = false) (dir : b.tree.Dir d) :
    a.tree.Dir d ∧ b.tree.ents d = a.tree.ents d := by
  unfold Step at step
  split at step
  · rw [step] at dir ⊢
    exact ⟨dir, rfl⟩
  · obtain ⟨c, edits, rfl⟩ := step
    obtain ⟨kept, dir'⟩ := Tree.dir_prune.mp dir
    rw [edits.tree_of_quiet quiet] at dir'
    refine ⟨dir', ?_⟩
    rw [← edits.tree_of_quiet quiet]
    exact Tree.ents_prune kept

end Names

end Xv6
