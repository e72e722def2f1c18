/-
**The name space: inodes, links and directory entries.**

`Tree` is what a file system is for those who use names: of every inode its type, its count of
links, and, of a directory, its entries. Blocks, the cache and the log are not part of it. The calls
change it by a few edits; `walk` is the lookup of a path.

The links proper are the entries other than `.` and `..`: `edge d i` counts those of `d` that name
`i`.
-/

import Xv6.Kernel.Basic
import Xv6.Lib.Links

namespace Xv6

open Lib Function

/-! ### Entries -/

namespace Dirent

/-- An entry in use that is neither `.` nor `..`. -/
def proper (de : Dirent) : Bool :=
  de.inum != 0 && namecmp [46] de.name != 0 && namecmp [46, 46] de.name != 0

/-- The entry names inode `i`, and is neither `.` nor `..`. -/
def names (i : Nat) (de : Dirent) : Bool := de.proper && de.inum.toNat == i

/-- The entry that `dirlink` writes. -/
def link (name : List UInt8) (i : Nat) : Dirent := ⟨UInt16.ofNat i, strncpy name DIRSIZ⟩

/-- The entries that `create` gives the new directory `i` in `d`. -/
def dots (i d : Nat) : List Dirent := [link [46] i, link [46, 46] d]

/-- The entry that `sys_unlink` leaves. -/
def free : Dirent := ⟨0, List.replicate DIRSIZ 0⟩

theorem proper_iff {de : Dirent} : de.proper = true ↔
    de.inum ≠ 0 ∧ namecmp [46] de.name ≠ 0 ∧ namecmp [46, 46] de.name ≠ 0 := by
  simp [proper, and_assoc]

theorem names_iff {de : Dirent} {i : Nat} :
    de.names i = true ↔ de.proper = true ∧ de.inum.toNat = i := by
  simp [names]

theorem toNat_link {name : List UInt8} {i : Nat} (small : i < 2 ^ 16) :
    (link name i).inum.toNat = i :=
  UInt16.toNat_ofNat_of_lt' small

theorem names_of_free {de : Dirent} (free' : de.inum = 0) (i : Nat) : de.names i = false := by
  simp [names, proper, free']

end Dirent

/-- The entry that a lookup of `name` finds in a list of entries. -/
def findIn (name : List UInt8) (l : List Dirent) : Option (Dirent × Nat) :=
  l.zipIdx.find? fun x => Kernel.matchesName name x.1

/-- Where a new entry goes. -/
def emptyIn (l : List Dirent) : Nat :=
  ((l.zipIdx.find? fun x => x.1.inum == 0).map Prod.snd).getD l.length

section Entries

variable {l : List Dirent} {de : Dirent} {name : List UInt8} {p i : Nat}

theorem findIn_eq_some (found : findIn name l = some (de, p)) :
    l[p]? = some de ∧ Kernel.matchesName name de = true :=
  ⟨List.mk_mem_zipIdx_iff_getElem?.mp
    (List.mem_of_find?_eq_some found), by simpa using List.find?_some found⟩

theorem findIn_eq_none (none' : findIn name l = none) (member : de ∈ l) :
    Kernel.matchesName name de = false := by
  obtain ⟨p, at'⟩ := List.getElem?_of_mem member
  have := List.find?_eq_none.mp none' (de, p) (List.mk_mem_zipIdx_iff_getElem?.mpr at')
  simpa using this

theorem emptyIn_le (l : List Dirent) : emptyIn l ≤ l.length := by
  unfold emptyIn
  cases found : l.zipIdx.find? fun x => x.1.inum == 0 with
  | none => exact le_rfl
  | some x =>
    have at' := List.mk_mem_zipIdx_iff_getElem?.mp (List.mem_of_find?_eq_some found)
    exact (List.getElem?_eq_some_iff.mp at').1.le

theorem emptyIn_free (at' : l[emptyIn l]? = some de) : de.inum = 0 := by
  unfold emptyIn at at'
  cases found : l.zipIdx.find? fun x => x.1.inum == 0 with
  | none =>
    rw [found] at at'
    exact absurd (List.getElem?_eq_some_iff.mp at').1 (lt_irrefl _)
  | some x =>
    rw [found] at at'
    have here := List.mk_mem_zipIdx_iff_getElem?.mp (List.mem_of_find?_eq_some found)
    have same : x.1 = de := Option.some.inj (here.symm.trans at')
    have free' := List.find?_some found
    rw [← same]
    simpa using free'

/-- A new entry is one more link to its inode. -/
theorem countP_link (number : 0 < i ∧ i < 2 ^ 16)
    (proper : (Dirent.link name i).proper = true) (j : Nat) :
    (splice l (emptyIn l) [Dirent.link name i]).countP (Dirent.names j) =
      l.countP (Dirent.names j) + if j = i then 1 else 0 := by
  have count := countP_splice_one (emptyIn_le l) (Dirent.link name i) (Dirent.names j)
  have old : (l[emptyIn l]?.elim 0 fun old => if old.names j then 1 else 0) = 0 := by
    cases at' : l[emptyIn l]? with
    | none => rfl
    | some de =>
      rw [Option.elim_some, Dirent.names_of_free (emptyIn_free at')]
      rfl
  have new : (Dirent.link name i).names j = decide (j = i) := by
    rw [Dirent.names, proper, Dirent.toNat_link number.2, Bool.true_and, Bool.eq_iff_iff]
    rw [beq_iff_eq, decide_eq_true_eq]
    exact eq_comm
  rw [old, new, Nat.add_zero] at count
  simpa using count

/-- A cleared entry is one link less to its inode. -/
theorem countP_clear (at' : l[p]? = some de) (proper : de.proper = true) (j : Nat) :
    l.countP (Dirent.names j) =
      (splice l p [Dirent.free]).countP (Dirent.names j) + if j = de.inum.toNat then 1 else 0 := by
  have count :=
    countP_splice_one (List.getElem?_eq_some_iff.mp at').1.le Dirent.free (Dirent.names j)
  have old : de.names j = decide (j = de.inum.toNat) := by
    rw [Dirent.names, proper, Bool.true_and, Bool.eq_iff_iff]
    rw [beq_iff_eq, decide_eq_true_eq]
    exact eq_comm
  rw [at', Option.elim_some, old, Dirent.names_of_free rfl] at count
  simpa using count.symm

end Entries

/-! ### Trees -/

/-- Inodes, links and entries. An inode of type `0` is free. -/
@[ext] structure Tree where
  type : Nat → Int16
  nlink : Nat → Int16
  /-- The entries of a directory; other inodes have none. -/
  ents : Nat → List Dirent

namespace Tree

def Live (t : Tree) (i : Nat) : Prop := t.type i ≠ 0

def Dir (t : Tree) (i : Nat) : Prop := t.type i = T_DIR

instance (t : Tree) : DecidablePred t.Live := fun _ => inferInstanceAs (Decidable (_ ≠ _))

instance (t : Tree) : DecidablePred t.Dir := fun _ => inferInstanceAs (Decidable (_ = _))

theorem Dir.live {t : Tree} {i : Nat} (dir : t.Dir i) : t.Live i := by
  unfold Live
  rw [show t.type i = T_DIR from dir]
  decide

/-- The number in the second entry, that of `..`. -/
def parent (t : Tree) (d : Nat) : Nat := (t.ents d)[1]?.elim 0 (·.inum.toNat)

theorem parent_eq {t : Tree} {d : Nat} {de : Dirent} (at' : (t.ents d)[1]? = some de) :
    t.parent d = de.inum.toNat := by
  unfold parent
  rw [at']
  rfl

/-- How many entries of `d`, other than `.` and `..`, name `i`. -/
def edge (t : Tree) (d i : Nat) : Nat := (t.ents d).countP (Dirent.names i)

/-- An entry in use leads from directory `d` to inode `i`. -/
def Leads (t : Tree) (d i : Nat) : Prop := ∃ de ∈ t.ents d, de.inum ≠ 0 ∧ de.inum.toNat = i

/-- The loop of a path lookup: see `Kernel.namexLoop`. -/
def walk (t : Tree) (i : Nat) (parent : Bool) (path name : List UInt8) :
    Option (Nat × List UInt8) :=
  match _ : Kernel.skipelem path with
  | none => if parent then none else some (i, name)
  | some (name, rest) =>
    if ¬ t.Dir i then none
    else if parent ∧ rest = [] then some (i, name)
    else
      match findIn name (t.ents i) with
      | none => none
      | some (de, _) => t.walk de.inum.toNat parent rest name
termination_by path.length
decreasing_by exact Kernel.length_skipelem (by assumption)

theorem walk_last (t : Tree) {i : Nat} {parent : Bool} {path name : List UInt8}
    (last : Kernel.skipelem path = none) :
    t.walk i parent path name = if parent then none else some (i, name) := by
  rw [walk]
  split
  · rfl
  · next more =>
    rw [last] at more
    cases more

/-- One turn of a lookup. -/
theorem walk_next (t : Tree) {i : Nat} {parent : Bool} {path name elem rest : List UInt8}
    (next' : Kernel.skipelem path = some (elem, rest)) : t.walk i parent path name =
      if ¬ t.Dir i then none
      else if parent ∧ rest = [] then some (i, elem)
      else
        match findIn elem (t.ents i) with
        | none => none
        | some (de, _) => t.walk de.inum.toNat parent rest elem := by
  rw [walk]
  split
  · next last =>
    rw [next'] at last
    cases last
  · next more =>
    rw [next'] at more
    cases more
    rfl

theorem walk_congr {t t' : Tree} (type : t'.type = t.type) (ents : t'.ents = t.ents) (i : Nat)
    (parent : Bool) (path name : List UInt8) :
    t'.walk i parent path name = t.walk i parent path name := by
  induction path using (measure List.length).wf.induction generalizing i name with
  | _ path ih =>
    cases next' : Kernel.skipelem path with
    | none => rw [walk_last _ next', walk_last _ next']
    | some x =>
      obtain ⟨elem, rest⟩ := x
      have dirs : t'.Dir i ↔ t.Dir i := by
        unfold Dir
        rw [type]
      rw [walk_next _ next', walk_next _ next', ents]
      by_cases dir : t.Dir i
      · rw [if_neg (not_not.mpr dir), if_neg (not_not.mpr (dirs.mpr dir))]
        split
        · rfl
        · split
          · rfl
          · exact ih rest (Kernel.length_skipelem next') _ _
      · rw [if_pos dir, if_pos (dirs.not.mpr dir)]

/-- The inode that a path leads to, for a process in directory `cwd`. -/
def resolve (t : Tree) (cwd : Nat) (path : List UInt8) : Option Nat :=
  (t.walk (if path.head? = some 47 then ROOTINO else cwd) false path []).map Prod.fst

/-- The directory that holds the last element of a path, and that element. -/
def resolveParent (t : Tree) (cwd : Nat) (path : List UInt8) : Option (Nat × List UInt8) :=
  t.walk (if path.head? = some 47 then ROOTINO else cwd) true path []

/-! ### Edits -/

def setNlink (t : Tree) (i : Nat) (n : Int16) : Tree := { t with nlink := update t.nlink i n }

def setEnts (t : Tree) (d : Nat) (l : List Dirent) : Tree := { t with ents := update t.ents d l }

/-- A new inode with one link. -/
def add (t : Tree) (i : Nat) (type : Int16) (l : List Dirent) : Tree where
  type := update t.type i type
  nlink := update t.nlink i 1
  ents := update t.ents i l

/-- The inodes in `S` are freed. -/
noncomputable def prune (t : Tree) (S : Set Nat) : Tree :=
  open Classical in
  { type := fun i => if i ∈ S then 0 else t.type i
    nlink := fun i => if i ∈ S then 0 else t.nlink i
    ents := fun i => if i ∈ S then [] else t.ents i }

/-- An entry of `d` for inode `i`. -/
def place (t : Tree) (d : Nat) (name : List UInt8) (i : Nat) : Tree :=
  t.setEnts d (splice (t.ents d) (emptyIn (t.ents d)) [Dirent.link name i])

/-- The entry `p` of `d` is cleared. -/
def clear (t : Tree) (d p : Nat) : Tree := t.setEnts d (splice (t.ents d) p [Dirent.free])

/-- A new file or device `name` in `d`. -/
def mkFile (t : Tree) (d : Nat) (name : List UInt8) (i : Nat) (type : Int16) : Tree :=
  (t.add i type []).place d name i

/-- A new directory `name` in `d`. -/
def mkDir (t : Tree) (d : Nat) (name : List UInt8) (i : Nat) : Tree :=
  ((t.add i T_DIR (Dirent.dots i d)).setNlink d (t.nlink d + 1)).place d name i

/-- Another name for `i`. -/
def link (t : Tree) (d : Nat) (name : List UInt8) (i : Nat) : Tree :=
  (t.setNlink i (t.nlink i + 1)).place d name i

/-- The entry `p` of `d` was the link to `i`. -/
def unlink (t : Tree) (d p i : Nat) : Tree :=
  let t' := if t.Dir i then (t.clear d p).setNlink d (t.nlink d - 1) else t.clear d p
  t'.setNlink i (t'.nlink i - 1)

section Edges

variable {t : Tree} {d i p : Nat} {name : List UInt8} {de : Dirent}

theorem edge_setEnts (t : Tree) (d : Nat) (l : List Dirent) (a b : Nat) :
    (t.setEnts d l).edge a b = if a = d then l.countP (Dirent.names b) else t.edge a b := by
  unfold edge setEnts
  by_cases same : a = d
  · subst same
    rw [if_pos rfl]
    simp only [update_self]
  · rw [if_neg same]
    simp only [update_of_ne same]

theorem added_place (number : 0 < i ∧ i < 2 ^ 16) (proper : (Dirent.link name i).proper = true) :
    Added t.edge (t.place d name i).edge d i := by
  intro a b
  unfold place
  rw [edge_setEnts]
  by_cases same : a = d
  · subst same
    rw [if_pos rfl, countP_link number proper]
    simp only [edge, true_and]
  · rw [if_neg same, if_neg fun both => same both.1, Nat.add_zero]

theorem added_clear (at' : (t.ents d)[p]? = some de) (proper : de.proper = true) :
    Added (t.clear d p).edge t.edge d de.inum.toNat := by
  intro a b
  unfold clear
  rw [edge_setEnts]
  by_cases same : a = d
  · subst same
    rw [if_pos rfl]
    have count := countP_clear at' proper b
    simpa only [edge, true_and] using count
  · rw [if_neg same, if_neg fun both => same both.1, Nat.add_zero]

theorem edge_pos : 0 < t.edge d i ↔ ∃ de ∈ t.ents d, de.proper = true ∧ de.inum.toNat = i := by
  unfold edge
  rw [List.countP_pos_iff]
  simp only [Dirent.names_iff]

theorem leads_of_found (found : findIn name (t.ents d) = some (de, p)) :
    t.Leads d de.inum.toNat := by
  obtain ⟨at', accepted⟩ := findIn_eq_some found
  have used : de.inum ≠ 0 := by
    intro free
    simp [Kernel.matchesName, free] at accepted
  exact ⟨de, List.mem_of_getElem? at', used, rfl⟩

/-- What entries lead on to holds wherever a lookup ends. -/
theorem walk_invariant {P : Nat → Prop} {parent : Bool} {path name' : List UInt8}
    (along : ∀ d e, P d → t.Leads d e → P e) (start : P i)
    (found : t.walk i parent path name = some (d, name')) : P d := by
  induction path using (measure List.length).wf.induction generalizing i name with
  | _ path ih =>
    cases next' : Kernel.skipelem path with
    | none =>
      rw [walk_last _ next'] at found
      split at found
      · cases found
      · cases found
        exact start
    | some x =>
      rw [walk_next _ next'] at found
      split at found
      · cases found
      · split at found
        · cases found
          exact start
        · split at found
          · cases found
          · next de q entry =>
            exact ih x.2 (Kernel.length_skipelem next')
              (along _ _ start (leads_of_found entry)) found

end Edges

end Tree

end Xv6
