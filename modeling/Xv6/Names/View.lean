/-
**The name space on the disk.**

`View.tree` is the tree that a file system spells. Writing an inode, an entry or a commit, and
freeing an inode, are the edits of the tree.
-/

import Xv6.Fs.Apart
import Xv6.Fs.Dir
import Xv6.Names.Tree

namespace Xv6.View

open Lib Function

/-- **The name space that the disk spells.** -/
def tree (v : View) : Tree where
  type i := (v.din i).type
  nlink i := if (v.din i).type = 0 then 0 else (v.din i).nlink
  ents i := if (v.din i).type = T_DIR then v.dirents i else []

section Tree

variable {v v' : View} {i d p : Nat} {de : Dirent} {din : Dinode}

theorem mem_ents_tree {de : Dirent} (member : de ∈ v.tree.ents d) : de ∈ v.dirents d := by
  by_cases dir : (v.din d).type = T_DIR
  · rwa [show v.tree.ents d = v.dirents d from if_pos dir] at member
  · rw [show v.tree.ents d = [] from if_neg dir] at member
    cases member

theorem ents_tree (dir : (v.din d).type = T_DIR) : v.tree.ents d = v.dirents d := if_pos dir

theorem nlink_tree (live : v.Live i) : v.tree.nlink i = (v.din i).nlink := if_neg live

theorem dirents_setDin (size : din.size = (v.din i).size)
    (addrs : din.addrs = (v.din i).addrs) (j : Nat) : (v.setDin i din).dirents j = v.dirents j := by
  have size' : ((v.setDin i din).din j).size = (v.din j).size := by
    by_cases same : j = i
    · rw [same, din_setDin_self, size]
    · rw [din_setDin_of_ne same]
  exact dirents_congr size' (contents_congr size' fun k _ => ⟨slot_setDin addrs j k, rfl⟩)

/-- Storing another count in an inode edits the count in the tree. -/
theorem tree_setNlink (live : v.Live i) (type : din.type = (v.din i).type)
    (size : din.size = (v.din i).size) (addrs : din.addrs = (v.din i).addrs) :
    (v.setDin i din).tree = v.tree.setNlink i din.nlink := by
  have types : ∀ j, ((v.setDin i din).din j).type = (v.din j).type := by
    intro j
    by_cases same : j = i
    · rw [same, din_setDin_self, type]
    · rw [din_setDin_of_ne same]
  refine Tree.ext (funext types) (funext fun j => ?_) (funext fun j => ?_)
  · show (if ((v.setDin i din).din j).type = 0 then 0 else ((v.setDin i din).din j).nlink) =
      update v.tree.nlink i din.nlink j
    rw [types]
    by_cases same : j = i
    · subst same
      rw [update_self, din_setDin_self]
      exact if_neg live
    · rw [update_of_ne same, din_setDin_of_ne same]
      rfl
  · show (if ((v.setDin i din).din j).type = T_DIR then (v.setDin i din).dirents j else []) =
      v.tree.ents j
    rw [types, dirents_setDin size addrs]
    rfl

/-- An inode that `ialloc` made is one without links and entries. -/
theorem tree_alloc (allocated : din.type ≠ 0) (empty : din.size = 0) (unlinked : din.nlink = 0) :
    (v.setDin i din).tree = (v.tree.add i din.type []).setNlink i 0 := by
  have dins : ∀ j, j ≠ i → (v.setDin i din).din j = v.din j :=
    fun j other => din_setDin_of_ne other _ _
  refine Tree.ext (funext fun j => ?_) (funext fun j => ?_) (funext fun j => ?_)
  · show ((v.setDin i din).din j).type = update v.tree.type i din.type j
    by_cases same : j = i
    · rw [same, din_setDin_self, update_self]
    · rw [dins j same, update_of_ne same]
      rfl
  · show (if ((v.setDin i din).din j).type = 0 then 0 else ((v.setDin i din).din j).nlink) =
      update (update v.tree.nlink i 1) i 0 j
    by_cases same : j = i
    · rw [same, din_setDin_self, update_self, if_neg allocated, unlinked]
    · rw [dins j same, update_of_ne same, update_of_ne same]
      rfl
  · show (if ((v.setDin i din).din j).type = T_DIR then (v.setDin i din).dirents j else []) =
      update v.tree.ents i [] j
    by_cases same : j = i
    · subst same
      have none' : (v.setDin j din).dirents j = [] := by
        rw [← List.length_eq_zero_iff, length_dirents, din_setDin_self, empty]
        rfl
      rw [update_self, none', ite_self]
    · rw [dins j same, update_of_ne same,
        dirents_congr (by rw [dins j same]) (contents_setDin_of_ne same)]
      rfl

theorem Rewritten.fields_tree {off : Nat} {src : List UInt8} {taken : List Nat}
    (rewritten : v.Rewritten v' d off src taken) :
    v'.tree.type = v.tree.type ∧ v'.tree.nlink = v.tree.nlink := by
  have fields : ∀ j, (v'.din j).type = (v.din j).type ∧ (v'.din j).nlink = (v.din j).nlink := by
    intro j
    by_cases same : j = d
    · rw [same, rewritten.fields]
      exact ⟨rfl, rfl⟩
    · rw [rewritten.otherDins j same]
      exact ⟨rfl, rfl⟩
  refine ⟨funext fun j => (fields j).1, funext fun j => ?_⟩
  show (if (v'.din j).type = 0 then 0 else (v'.din j).nlink) = v.tree.nlink j
  rw [(fields j).1, (fields j).2]
  rfl

theorem Rewritten.ents_of_ne {off : Nat} {src : List UInt8} {taken : List Nat} {j : Nat}
    (rewritten : v.Rewritten v' d off src taken) (other : j ≠ d) :
    v'.tree.ents j = v.tree.ents j := by
  show (if (v'.din j).type = T_DIR then v'.dirents j else []) = if (v.din j).type =
    T_DIR then v.dirents j else []
  rw [rewritten.otherDins j other]
  by_cases isDir : (v.din j).type = T_DIR
  · have live : v.Live j := by
      unfold Live
      rw [isDir]
      decide
    rw [if_pos isDir, if_pos isDir]
    exact dirents_congr (by rw [rewritten.otherDins j other]) (rewritten.otherContents j other live)
  · rw [if_neg isDir, if_neg isDir]

/-- Writing to a file changes no name. -/
theorem Rewritten.tree_of_file {off : Nat} {src : List UInt8} {taken : List Nat}
    (rewritten : v.Rewritten v' d off src taken) (file : (v.din d).type ≠ T_DIR) :
    v'.tree = v.tree := by
  obtain ⟨types, nlinks⟩ := rewritten.fields_tree
  refine Tree.ext types nlinks (funext fun j => ?_)
  by_cases same : j = d
  · subst same
    have file' : (v'.din j).type ≠ T_DIR := fun dir => file ((congrFun types j).symm.trans dir)
    exact (if_neg file').trans (if_neg file).symm
  · exact rewritten.ents_of_ne same

/-- Writing one entry of a directory replaces or appends that entry in the tree. -/
theorem tree_setEnts {taken : List Nat} (name : de.name.length = DIRSIZ)
    (dir : (v.din d).type = T_DIR)
    (aligned : (v.din d).size.toNat % DIRENTSIZE = 0 ∨ p < (v.dirents d).length)
    (inside : DIRENTSIZE * p ≤ (v.din d).size.toNat)
    (rewritten : v.Rewritten v' d (DIRENTSIZE * p) de.encode taken) :
    v'.tree = v.tree.setEnts d (splice (v.tree.ents d) p [de]) := by
  obtain ⟨types, nlinks⟩ := rewritten.fields_tree
  refine Tree.ext types nlinks (funext fun j => ?_)
  show v'.tree.ents j = update v.tree.ents d (splice (v.tree.ents d) p [de]) j
  by_cases same : j = d
  · subst same
    have dir' : (v'.din j).type = T_DIR := (congrFun types j).trans dir
    rw [update_self, ents_tree dir, ents_tree dir']
    exact rewritten.dirents name aligned inside
  · rw [update_of_ne same]
    exact rewritten.ents_of_ne same

/-- The last `iput` frees the inode in the tree. -/
theorem Removed.tree (removed : v.Removed v' i) : v'.tree = v.tree.prune {i} := by
  have free : (v'.din i).type = 0 := not_not.mp removed.dead
  refine Tree.ext (funext fun j => ?_) (funext fun j => ?_) (funext fun j => ?_)
  · show (v'.din j).type = _
    by_cases same : j = i
    · rw [show (v.tree.prune {i}).type j = 0 from if_pos same, same, free]
    · rw [show (v.tree.prune {i}).type j = (v.din j).type from if_neg same, removed.others j same]
  · show (if (v'.din j).type = 0 then 0 else (v'.din j).nlink) = _
    by_cases same : j = i
    · rw [show (v.tree.prune {i}).nlink j = 0 from if_pos same, same, if_pos free]
    · rw [show (v.tree.prune {i}).nlink j = v.tree.nlink j from if_neg same, removed.others j same]
      rfl
  · show (if (v'.din j).type = T_DIR then v'.dirents j else []) = _
    by_cases same : j = i
    · rw [show (v.tree.prune {i}).ents j = [] from if_pos same, same, if_neg (by rw [free]; decide)]
    · rw [show (v.tree.prune {i}).ents j = v.tree.ents j from if_neg same, removed.others j same,
        dirents_congr (by rw [removed.others j same]) (removed.contents same)]
      rfl

/-- A commit changes no name. -/
theorem Agrees.tree (agrees : v.Agrees v') (inside : v.Inside) (wellFormed : v.WellFormed) :
    v'.tree = v.tree := by
  refine Tree.ext (funext fun j => ?_) (funext fun j => ?_) (funext fun j => ?_)
  · show (v'.din j).type = (v.din j).type
    rw [agrees.din]
  · show (if (v'.din j).type = 0 then 0 else (v'.din j).nlink) = v.tree.nlink j
    rw [agrees.din]
    rfl
  · show (if (v'.din j).type = T_DIR then v'.dirents j else []) = v.tree.ents j
    rw [agrees.din]
    by_cases isDir : (v.din j).type = T_DIR
    · have live : v.Live j := by
        unfold Live
        rw [isDir]
        decide
      rw [if_pos isDir, ents_tree isDir]
      exact dirents_congr (by rw [agrees.din]) (agrees.contents inside wellFormed live)
    · rw [if_neg isDir]
      exact (if_neg isDir).symm

end Tree

end Xv6.View
