/-
**Trees whose counts are right.**

A directory starts with its entries `.` and `..`, entries other than these two name allocated
inodes, a directory has at most one such entry, and that is in the directory its `..` names. The
count of an inode is what its entries ask for, one for each link and one for each subdirectory, plus
what directories that were freed with their entries left behind: `Tree.Sound`.
-/

import Xv6.Names.Tree

namespace Xv6

open Lib Finset Function

/-! ### The entries of a directory -/

/-- The entries of directory `d`: `.`, `..`, and others. -/
structure Dotted (n d : Nat) (l : List Dirent) : Prop where
  dot : ∃ de, l[0]? = some de ∧ de.inum.toNat = d ∧ namecmp [46] de.name = 0
  dotdot : ∃ de, l[1]? = some de ∧ (0 < de.inum.toNat ∧ de.inum.toNat < n) ∧
    namecmp [46, 46] de.name = 0
  others : ∀ p de, 2 ≤ p → l[p]? = some de → de.inum ≠ 0 → de.proper = true ∧ de.inum.toNat < n

namespace Dotted

variable {n d i p : Nat} {l : List Dirent} {de : Dirent} {name : List UInt8}

/-- The links proper come after `.` and `..`. -/
theorem two_le_of_proper (dotted : Dotted n d l) (at' : l[p]? = some de)
    (proper : de.proper = true) : 2 ≤ p := by
  obtain ⟨_, dot, dotdot⟩ := Dirent.proper_iff.mp proper
  match p with
  | 0 =>
    obtain ⟨first, here, _, name⟩ := dotted.dot
    rw [here] at at'
    cases at'
    exact absurd name dot
  | 1 =>
    obtain ⟨second, here, _, name⟩ := dotted.dotdot
    rw [here] at at'
    cases at'
    exact absurd name dotdot
  | p + 2 => omega

theorem two_le_emptyIn (dotted : Dotted n d l) (number : 0 < d) : 2 ≤ emptyIn l := by
  by_contra low
  obtain ⟨first, at₀, self, _⟩ := dotted.dot
  obtain ⟨second, at₁, ⟨up, _⟩, _⟩ := dotted.dotdot
  have either : emptyIn l = 0 ∨ emptyIn l = 1 := by omega
  rcases either with zero | one
  · have free := emptyIn_free (l := l) (by rw [zero]; exact at₀)
    rw [← self, free] at number
    exact absurd number (by decide)
  · have free := emptyIn_free (l := l) (by rw [one]; exact at₁)
    rw [free] at up
    exact absurd up (by decide)

/-- Storing an entry behind the first two keeps them. -/
theorem splice (dotted : Dotted n d l) (from' : 2 ≤ p) (inside : p ≤ l.length)
    (entry : de.inum ≠ 0 → de.proper = true ∧ de.inum.toNat < n) :
    Dotted n d (splice l p [de]) ∧ (Lib.splice l p [de])[1]? = l[1]? := by
  have low : ∀ q < 2, (Lib.splice l p [de])[q]? = l[q]? := by
    intro q below
    rw [getElem?_splice inside, if_pos (by omega)]
  refine ⟨⟨?_, ?_, ?_⟩, low 1 (by omega)⟩
  · rw [low 0 (by omega)]
    exact dotted.dot
  · rw [low 1 (by omega)]
    exact dotted.dotdot
  · intro q other from'' at'
    rw [getElem?_splice inside] at at'
    split at at'
    · exact dotted.others q other from'' at'
    · split at at'
      · next behind here =>
        rw [List.length_singleton] at here
        rw [show q - p = 0 by omega] at at'
        cases at'
        exact entry
      · exact dotted.others q other from'' at'

/-- A name that is not there yet is neither `.` nor `..`. -/
theorem proper_link (dotted : Dotted n d l) (number : 0 < d) (target : 0 < i ∧ i < 2 ^ 16)
    (absent : findIn name l = none) : (Dirent.link name i).proper = true := by
  have differs : ∀ (p : Nat) (de : Dirent), l[p]? = some de → 0 < de.inum.toNat → ∀ dots,
      namecmp dots de.name = 0 → namecmp dots (strncpy name DIRSIZ) ≠ 0 := by
    intro p de at' some' dots named same
    have other := findIn_eq_none absent (List.mem_of_getElem? at')
    rw [namecmp_eq_zero] at named same
    rw [strncpy_strncpy] at same
    have matched : namecmp name de.name = 0 := namecmp_eq_zero.mpr (same.symm.trans named)
    have used : de.inum ≠ 0 := by
      intro zero
      rw [zero] at some'
      exact absurd some' (by decide)
    rw [Kernel.matchesName] at other
    simp [used, matched] at other
  refine Dirent.proper_iff.mpr ⟨?_, ?_, ?_⟩
  · intro zero
    have : (Dirent.link name i).inum.toNat = i := Dirent.toNat_link target.2
    rw [zero] at this
    exact absurd target.1 (by rw [← this]; decide)
  · obtain ⟨de, at', self, named⟩ := dotted.dot
    exact differs 0 de at' (self ▸ number) [46] named
  · obtain ⟨de, at', up, named⟩ := dotted.dotdot
    exact differs 1 de at' up.1 [46, 46] named

theorem new (self : i < 2 ^ 16) (up : 0 < d ∧ d < n) (small : n ≤ 2 ^ 16) :
    Dotted n i (Dirent.dots i d) where
  dot := ⟨_, rfl, Dirent.toNat_link self, namecmp_eq_zero.mpr (strncpy_strncpy _ _).symm⟩
  dotdot := by
    refine ⟨_, rfl, ?_, namecmp_eq_zero.mpr (strncpy_strncpy _ _).symm⟩
    rw [Dirent.toNat_link (up.2.trans_le small)]
    exact up
  others p de from' at' := by
    have := (List.getElem?_eq_some_iff.mp at').1
    simp only [Dirent.dots, List.length_cons, List.length_nil] at this
    omega

end Dotted

/-! ### Shapes -/

namespace Tree

/-- What the entries look like. There are `n` inodes. -/
structure Shape (t : Tree) (n : Nat) : Prop where
  small : n ≤ 2 ^ 16
  bounded : ∀ i, t.Live i → 0 < i ∧ i < n
  plain : ∀ i, ¬ t.Dir i → t.ents i = []
  dead : ∀ i, ¬ t.Live i → t.nlink i = 0
  root : t.Dir ROOTINO
  dots : ∀ d, t.Dir d → Dotted n d (t.ents d)

section Shape

variable {t t' : Tree} {n d i j p : Nat} {name : List UInt8} {de : Dirent}

theorem Shape.edge_of_not_dir (shape : t.Shape n) (plain : ¬ t.Dir d) : t.edge d i = 0 := by
  unfold edge
  rw [shape.plain d plain]
  rfl

theorem Shape.dir_of_edge (shape : t.Shape n) (link : 0 < t.edge d i) : t.Dir d := by
  by_contra plain
  exact absurd (shape.edge_of_not_dir plain) link.ne'

/-- **Where an entry leads**: `.` to its directory, `..` to the parent, the others along a link. -/
theorem Shape.leads_cases (shape : t.Shape n) (leads : t.Leads d i) :
    t.Dir d ∧ i < n ∧ (i = d ∨ i = t.parent d ∨ 0 < t.edge d i) := by
  obtain ⟨de, member, used, rfl⟩ := leads
  have dir : t.Dir d := by
    by_contra plain
    rw [shape.plain d plain] at member
    cases member
  have dotted := shape.dots d dir
  obtain ⟨p, at'⟩ := List.getElem?_of_mem member
  refine ⟨dir, ?_⟩
  match p with
  | 0 =>
    obtain ⟨first, here, self, _⟩ := dotted.dot
    rw [here] at at'
    cases at'
    exact ⟨self ▸ (shape.bounded d dir.live).2, .inl self⟩
  | 1 =>
    obtain ⟨second, here, up, _⟩ := dotted.dotdot
    rw [here] at at'
    cases at'
    exact ⟨up.2, .inr (.inl (parent_eq here).symm)⟩
  | p + 2 =>
    have other := dotted.others (p + 2) de (by omega) at' used
    exact ⟨other.2, .inr (.inr (edge_pos.mpr ⟨de, member, other.1, rfl⟩))⟩

theorem Shape.setNlink (shape : t.Shape n) (live : t.Live i) (x : Int16) :
    (t.setNlink i x).Shape n where
  small := shape.small
  bounded := shape.bounded
  plain := shape.plain
  dead j free := by
    have other : j ≠ i := by
      rintro rfl
      exact free live
    show update t.nlink i x j = 0
    rw [update_of_ne other]
    exact shape.dead j free
  root := shape.root
  dots := shape.dots

theorem Shape.setEnts (shape : t.Shape n) (dir : t.Dir d) {l : List Dirent}
    (dotted : Dotted n d l) : (t.setEnts d l).Shape n where
  small := shape.small
  bounded := shape.bounded
  plain j plain := by
    have other : j ≠ d := by
      rintro rfl
      exact plain dir
    show update t.ents d l j = []
    rw [update_of_ne other]
    exact shape.plain j plain
  dead := shape.dead
  root := shape.root
  dots j dir' := by
    show Dotted n j (update t.ents d l j)
    by_cases same : j = d
    · subst same
      rw [update_self]
      exact dotted
    · rw [update_of_ne same]
      exact shape.dots j dir'

theorem Shape.add (shape : t.Shape n) (free : ¬ t.Live i) (number : 0 < i ∧ i < n) {type : Int16}
    (allocated : type ≠ 0) {l : List Dirent} (plain : type ≠ T_DIR → l = [])
    (dotted : type = T_DIR → Dotted n i l) : (t.add i type l).Shape n := by
  have look : ∀ j, (t.add i type l).type j = if j = i then type else t.type j := fun j =>
    update_apply ..
  have list : ∀ j, (t.add i type l).ents j = if j = i then l else t.ents j := fun j =>
    update_apply ..
  refine ⟨shape.small, ?_, ?_, ?_, ?_, ?_⟩
  · intro j live
    by_cases same : j = i
    · exact same ▸ number
    · refine shape.bounded j fun none' => live ?_
      rw [look, if_neg same]
      exact none'
  · intro j plain'
    have other : (t.add i type l).type j ≠ T_DIR := plain'
    rw [look] at other
    rw [list]
    by_cases same : j = i
    · rw [if_pos same] at other ⊢
      exact plain other
    · rw [if_neg same] at other ⊢
      exact shape.plain j other
  · intro j free'
    have none' : ¬ (t.add i type l).type j ≠ 0 := free'
    rw [look] at none'
    show update t.nlink i 1 j = 0
    by_cases same : j = i
    · rw [if_pos same] at none'
      exact absurd allocated none'
    · rw [if_neg same] at none'
      rw [update_of_ne same]
      exact shape.dead j none'
  · have other : ROOTINO ≠ i := fun same => free (same ▸ shape.root.live)
    show (t.add i type l).type ROOTINO = T_DIR
    rw [look, if_neg other]
    exact shape.root
  · intro j dir
    have dir' : (t.add i type l).type j = T_DIR := dir
    rw [look] at dir'
    rw [list]
    by_cases same : j = i
    · rw [if_pos same] at dir' ⊢
      exact same ▸ dotted dir'
    · rw [if_neg same] at dir' ⊢
      exact shape.dots j dir'

end Shape

/-! ### Counts -/

/-- The links that the entries give an inode: those to it, one for the `..` of each of its
subdirectories, and one for the `..` of the root. -/
def owed (t : Tree) (n i : Nat) : Nat :=
  into (range n) t.edge i + outOf (range n) t.Dir t.edge i + if i = ROOTINO then 1 else 0

/-- **The counts are right**, but for the links that freed directories left. -/
structure Sound (t : Tree) (n : Nat) (leak : Nat → Nat) : Prop extends t.Shape n where
  live : ∀ d i, 0 < t.edge d i → t.Live i
  up : ∀ d i, 0 < t.edge d i → t.Dir i → i ≠ ROOTINO ∧ t.parent i = d
  rootUp : t.parent ROOTINO = ROOTINO
  single : ∀ i, t.Dir i → into (range n) t.edge i ≤ 1
  count : ∀ i, t.Live i → (t.nlink i).toInt = t.owed n i + leak i
  fresh : ∀ i, ¬ t.Live i → leak i = 0

section Sound

variable {t t' : Tree} {n d i : Nat} {leak : Nat → Nat}

theorem Shape.mem_range (shape : t.Shape n) (live : t.Live i) : i ∈ range n :=
  Finset.mem_range.mpr (shape.bounded i live).2

theorem Sound.into_dead (sound : t.Sound n leak) (free : ¬ t.Live i) :
    into (range n) t.edge i = 0 :=
  sum_eq_zero fun d _ => Nat.eq_zero_of_not_pos fun link => free (sound.live d i link)

theorem Sound.outOf_dead (sound : t.Sound n leak) (free : ¬ t.Live i) :
    outOf (range n) t.Dir t.edge i = 0 :=
  sum_eq_zero fun _ _ => sound.edge_of_not_dir fun dir => free dir.live

theorem Sound.count_dead (sound : t.Sound n leak) (free : ¬ t.Live i) :
    (t.nlink i).toInt = t.owed n i + leak i := by
  have other : i ≠ ROOTINO := by
    rintro rfl
    exact free sound.root.live
  unfold owed
  rw [sound.dead i free, sound.into_dead free, sound.outOf_dead free, if_neg other,
    sound.fresh i free]
  rfl

theorem Sound.count' (sound : t.Sound n leak) (i : Nat) :
    (t.nlink i).toInt = t.owed n i + leak i := by
  by_cases live : t.Live i
  · exact sound.count i live
  · exact sound.count_dead live

/-- What a new link needs to keep the counts right, whatever else changes. -/
theorem Sound.attach (sound : t.Sound n leak) (shape : t'.Shape n) (dir : t.Dir d)
    (added : Added t.edge t'.edge d i) (lives : ∀ j, t'.Live j ↔ t.Live j ∨ j = i)
    (dirs : ∀ j, t'.Dir j ↔ t.Dir j ∨ j = i ∧ t'.Dir i) (plain : t.Live i → ¬ t'.Dir i)
    (parents : ∀ j, t.Dir j → t'.parent j = t.parent j) (new : t'.Dir i → t'.parent i = d)
    (nlinks : ∀ j, (t'.nlink j).toInt = (t.nlink j).toInt + (if j = i then 1 else 0) +
      if j = d ∧ t'.Dir i then 1 else 0) : t'.Sound n leak := by
  have here : i ∈ range n := shape.mem_range ((lives i).mpr (.inr rfl))
  -- An inode that had a link is a directory now only if it was one before.
  have kind : ∀ a b, 0 < t.edge a b → (t'.Dir b ↔ t.Dir b) := by
    intro a b link
    refine ⟨fun dir' => ?_, fun dir' => (dirs b).mpr (.inl dir')⟩
    rcases (dirs b).mp dir' with old | ⟨rfl, newDir⟩
    · exact old
    · exact absurd newDir (plain (sound.live a b link))
  refine { shape with live := ?_, up := ?_, rootUp := ?_, single := ?_, count := ?_, fresh := ?_ }
  · intro a b link
    rcases added.pos.mp link with old | ⟨_, rfl⟩
    · exact (lives b).mpr (.inl (sound.live a b old))
    · exact (lives b).mpr (.inr rfl)
  · intro a b link dir'
    rcases added.pos.mp link with old | ⟨rfl, rfl⟩
    · have dirB := (kind a b old).mp dir'
      obtain ⟨other, up⟩ := sound.up a b old dirB
      exact ⟨other, (parents b dirB).trans up⟩
    · refine ⟨?_, new dir'⟩
      rintro rfl
      exact plain sound.root.live dir'
  · rw [parents _ sound.root, sound.rootUp]
  · intro j dir'
    rw [added.into (sound.mem_range dir.live)]
    rcases (dirs j).mp dir' with old | ⟨rfl, newDir⟩
    · by_cases same : j = i
      · subst same
        exact absurd dir' (plain old.live)
      · rw [if_neg same]
        exact sound.single j old
    · rw [sound.into_dead fun live => plain live newDir, if_pos rfl]
  · intro j _
    have owed' : t'.owed n j = t.owed n j + (if j = i then 1 else 0) +
        if j = d ∧ t'.Dir i then 1 else 0 := by
      have before : outOf (range n) t'.Dir t.edge j = outOf (range n) t.Dir t.edge j :=
        outOf_congr fun b link => kind j b link
      unfold owed
      rw [added.into (sound.mem_range dir.live), added.outOf here, before]
      omega
    have count := sound.count' j
    rw [nlinks, count, owed']
    split_ifs <;> omega
  · intro j free
    exact sound.fresh j fun live => free ((lives j).mpr (.inl live))

/-- What removing a link needs to keep the counts right. -/
theorem Sound.detach (sound : t.Sound n leak) (shape : t'.Shape n)
    (added : Added t'.edge t.edge d i) (types : t'.type = t.type)
    (parents : ∀ j, t.Dir j → t'.parent j = t.parent j)
    (nlinks : ∀ j, (t'.nlink j).toInt = (t.nlink j).toInt - (if j = i then 1 else 0) -
      if j = d ∧ t.Dir i then 1 else 0) : t'.Sound n leak := by
  have lives : t'.Live = t.Live := by
    unfold Live
    rw [types]
  have dirs : t'.Dir = t.Dir := by
    unfold Dir
    rw [types]
  have link : 0 < t.edge d i := added.pos.mpr (.inr ⟨rfl, rfl⟩)
  have older : ∀ a b, 0 < t'.edge a b → 0 < t.edge a b := fun a b more => added.pos.mpr (.inl more)
  have inD := sound.mem_range (sound.dir_of_edge link).live
  refine { shape with live := ?_, up := ?_, rootUp := ?_, single := ?_, count := ?_, fresh := ?_ }
  · intro a b more
    rw [lives]
    exact sound.live a b (older a b more)
  · intro a b more dir
    rw [dirs] at dir
    obtain ⟨other, up⟩ := sound.up a b (older a b more) dir
    exact ⟨other, (parents b dir).trans up⟩
  · rw [parents _ sound.root, sound.rootUp]
  · intro j dir
    rw [dirs] at dir
    have before := sound.single j dir
    rw [added.into inD] at before
    omega
  · intro j _
    have count := sound.count' j
    have owed' : t.owed n j = t'.owed n j + (if j = i then 1 else 0) +
        if j = d ∧ t.Dir i then 1 else 0 := by
      unfold owed
      rw [added.into inD, added.outOf (sound.mem_range (sound.live d i link))]
      simp only [dirs]
      omega
    rw [nlinks, count, owed']
    split_ifs <;> omega
  · rw [lives]
    exact sound.fresh

end Sound

end Tree

end Xv6
