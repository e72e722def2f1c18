/-
**Link counts are exact where entries are added to linked directories only.**

`Tree.refs` counts the entries that name an inode, other than `.`, in the directories that can be
reached from the root. In a `Tidy` tree nothing has leaked, a directory without links has no
entries, and every directory with links can be reached; then the count of each inode is exact.
-/

import Xv6.Names.Machine

namespace Xv6

open Lib Finset

/-- The entry names inode `i`, and is not `.`. -/
def Dirent.refers (i : Nat) (de : Dirent) : Bool :=
  de.inum != 0 && de.inum.toNat == i && namecmp [46] de.name != 0

namespace Tree

/-- What lookups from the root can reach. -/
def Reach (t : Tree) : Nat → Prop := Relation.ReflTransGen t.Leads ROOTINO

/-- **The number of entries other than `.` that refer to inode `i`** from directories reachable from
the root. -/
noncomputable def refs (t : Tree) (n i : Nat) : Nat :=
  open Classical in ∑ d ∈ range n with t.Reach d, (t.ents d).countP (Dirent.refers i)

section Reach

variable {t : Tree} {n d i : Nat} {leak : Nat → Nat}

theorem Shape.leads_parent (shape : t.Shape n) (dir : t.Dir d) : t.Leads d (t.parent d) := by
  obtain ⟨de, at', up, _⟩ := (shape.dots d dir).dotdot
  refine ⟨de, List.mem_of_getElem? at', ?_, (parent_eq at').symm⟩
  intro zero
  rw [zero] at up
  exact absurd up.1 (by decide)

theorem Sound.reached_up (sound : t.Sound n leak) (reaches : Reaches t.edge ROOTINO d) :
    Reaches t.edge ROOTINO (t.parent d) ∨ ¬ t.Dir d := by
  by_cases dir : t.Dir d
  · left
    cases reaches with
    | refl =>
      rw [sound.rootUp]
      exact .refl
    | tail before link =>
      rw [(sound.up _ d link dir).2]
      exact before
  · exact .inr dir

/-- Lookups from the root reach what the links reach: `.` and `..` add nothing. -/
theorem Sound.reach_iff (sound : t.Sound n leak) : t.Reach d ↔ Reaches t.edge ROOTINO d := by
  constructor
  · intro reach
    induction reach with
    | refl => exact .refl
    | @tail c e _ leads ih =>
      obtain ⟨dir, _, rfl | rfl | link⟩ := sound.leads_cases leads
      · exact ih
      · exact (sound.reached_up ih).resolve_right (not_not.mpr dir)
      · exact ih.tail link
  · intro reaches
    refine Relation.ReflTransGen.mono (fun c e link => ?_) _ _ reaches
    obtain ⟨de, member, proper, target⟩ := edge_pos.mp link
    exact ⟨de, member, (Dirent.proper_iff.mp proper).1, target⟩

theorem Sound.reached_live (sound : t.Sound n leak) (reaches : Reaches t.edge ROOTINO d) :
    t.Live d :=
  reaches.invariant sound.root.live fun a b _ link => sound.live a b link

/-- A directory without links is not reached from the root. -/
theorem Sound.reached_linked (sound : t.Sound n leak) (reaches : Reaches t.edge ROOTINO d) :
    t.nlink d ≠ 0 :=
  reaches.invariant sound.root_linked fun a _ _ link unlinked =>
    link.ne' (sound.edge_eq_zero unlinked a)

/-- The entries other than `.` are the links proper and `..`. -/
theorem Dotted.countP_refers {l : List Dirent} (dotted : Dotted n d l) (i : Nat) :
    l.countP (Dirent.refers i) =
      l.countP (Dirent.names i) + if l[1]?.elim 0 (·.inum.toNat) = i then 1 else 0 := by
  obtain ⟨first, at₀, _, dot⟩ := dotted.dot
  obtain ⟨second, at₁, up, dotdot⟩ := dotted.dotdot
  match l, at₀, at₁, dotted.others with
  | x :: y :: rest, at₀, at₁, others =>
    obtain rfl : first = x := (Option.some.inj at₀).symm
    obtain rfl : second = y := (Option.some.inj at₁).symm
    have used : second.inum ≠ 0 := by
      intro zero
      rw [zero] at up
      exact absurd up.1 (by decide)
    have other : namecmp [46] second.name ≠ 0 := by
      intro same
      rw [namecmp_eq_zero] at same dotdot
      exact absurd (same.trans dotdot.symm) (by decide)
    have behind : rest.countP (Dirent.refers i) = rest.countP (Dirent.names i) := by
      refine List.countP_congr fun de member => ?_
      obtain ⟨p, at'⟩ := List.getElem?_of_mem member
      by_cases free : de.inum = 0
      · rw [Dirent.names_of_free free]
        simp [Dirent.refers, free]
      · have proper := (others (p + 2) de (by omega) at' free).1
        have parts := Dirent.proper_iff.mp proper
        simp [Dirent.refers, Dirent.names, proper, free, parts.2.1]
    have x₀ : first.refers i = false ∧ first.names i = false := by
      simp [Dirent.refers, Dirent.names, Dirent.proper, dot]
    have y₀ : second.names i = false := by
      simp [Dirent.names, Dirent.proper, dotdot]
    have y₁ : second.refers i = (second.inum.toNat == i) := by
      rw [Dirent.refers, bne_iff_ne.mpr used, bne_iff_ne.mpr other, Bool.true_and, Bool.and_true]
    rw [List.countP_cons, List.countP_cons, List.countP_cons, List.countP_cons, behind, x₀.1,
      x₀.2, y₀, y₁]
    by_cases here : second.inum.toNat = i <;> simp [here]

end Reach

/-! ### Tidy trees -/

/-- **Nothing leaked, and every directory is either linked and reachable, or empty.** -/
structure Tidy (t : Tree) (n : Nat) : Prop where
  sound : t.Sound n fun _ => 0
  empty : ∀ d, t.Dir d → t.nlink d = 0 → ∀ i, t.edge d i = 0
  reached : ∀ d, t.Dir d → t.nlink d ≠ 0 → Reaches t.edge ROOTINO d

section Tidy

variable {t t' : Tree} {n d i : Nat}

theorem Tidy.reached_of_edge (tidy : t.Tidy n) (link : 0 < t.edge d i) :
    Reaches t.edge ROOTINO d := by
  have dir := tidy.sound.dir_of_edge link
  exact tidy.reached d dir fun unlinked => link.ne' (tidy.empty d dir unlinked i)

/-- What a directory `d` counts for its parent `i`: the entry for it there, or the `..` of the
root. -/
def upward (t : Tree) (d i : Nat) : Nat :=
  (if t.Dir d then t.edge i d else 0) + if d = ROOTINO ∧ i = ROOTINO then 1 else 0

theorem Tidy.upward_eq_one (tidy : t.Tidy n) (reach : t.Reach d) (dir : t.Dir d)
    (up : t.parent d = i) : t.upward d i = 1 := by
  have sound := tidy.sound
  have reaches := sound.reach_iff.mp reach
  unfold upward
  rw [if_pos dir]
  by_cases root : d = ROOTINO
  · have same : i = ROOTINO := by rw [← up, root, sound.rootUp]
    have none' : t.edge i d = 0 := by
      by_contra link
      exact (sound.up i d (Nat.pos_of_ne_zero link) dir).1 root
    rw [none', if_pos ⟨root, same⟩]
  · rw [if_neg fun both => root both.1, Nat.add_zero]
    cases reaches with
    | refl => exact absurd rfl root
    | @tail c _ before last =>
      have parent' := (sound.up c d last dir).2
      rw [up] at parent'
      subst parent'
      have one : t.edge i d ≤ 1 := (le_into (sound.mem_range (sound.dir_of_edge last).live)).trans
        (sound.single d dir)
      have some' : 0 < t.edge i d := last
      omega

theorem Tidy.upward_eq_zero (tidy : t.Tidy n) (other : ¬ (t.Reach d ∧ t.Dir d ∧ t.parent d = i)) :
    t.upward d i = 0 := by
  have sound := tidy.sound
  unfold upward
  have root : ¬ (d = ROOTINO ∧ i = ROOTINO) := by
    rintro ⟨rfl, rfl⟩
    exact other ⟨.refl, sound.root, sound.rootUp⟩
  rw [if_neg root, Nat.add_zero]
  by_cases dir : t.Dir d
  · rw [if_pos dir]
    by_contra link
    have link' := Nat.pos_of_ne_zero link
    have reaches : Reaches t.edge ROOTINO d := (tidy.reached_of_edge link').tail link'
    exact other ⟨sound.reach_iff.mpr reaches, dir, (sound.up i d link' dir).2⟩
  · rw [if_neg dir]

/-- **In a tidy tree, what an inode is owed is the number of entries that refer to it.** -/
theorem Tidy.refs_eq (tidy : t.Tidy n) (i : Nat) : t.refs n i = t.owed n i := by
  classical
  have sound := tidy.sound
  have each : ∀ d ∈ range n, (if t.Reach d then (t.ents d).countP (Dirent.refers i) else 0) =
      t.edge d i + t.upward d i := by
    intro d _
    by_cases reach : t.Reach d
    · rw [if_pos reach]
      by_cases dir : t.Dir d
      · have split :
            (t.ents d).countP (Dirent.refers i) = t.edge d i + if t.parent d = i then 1 else 0 :=
          Dotted.countP_refers (sound.dots d dir) i
        rw [split]
        by_cases up : t.parent d = i
        · rw [tidy.upward_eq_one reach dir up, if_pos up]
        · rw [tidy.upward_eq_zero fun all => up all.2.2, if_neg up]
      · rw [tidy.upward_eq_zero fun all => dir all.2.1, sound.edge_of_not_dir dir,
          sound.plain d dir]
        rfl
    · rw [if_neg reach, tidy.upward_eq_zero fun all => reach all.1, Nat.add_zero]
      by_contra link
      exact reach (sound.reach_iff.mpr (tidy.reached_of_edge (Nat.pos_of_ne_zero (Ne.symm link))))
  have root : ROOTINO ∈ range n := sound.mem_range sound.root.live
  have corner : (∑ d ∈ range n, if d = ROOTINO ∧ i = ROOTINO then 1 else 0) =
      if i = ROOTINO then 1 else 0 := by
    simp only [ite_and]
    rw [sum_ite_eq' (range n) ROOTINO, if_pos root]
  unfold refs owed into outOf
  rw [sum_filter, sum_congr rfl each, sum_add_distrib]
  unfold upward
  rw [sum_add_distrib, corner, sum_filter, Nat.add_assoc]

/-- The count of an inode is the number of entries that name it. -/
theorem Tidy.nlink_eq (tidy : t.Tidy n) (i : Nat) : (t.nlink i).toInt = t.refs n i := by
  rw [tidy.refs_eq, tidy.sound.count']
  omega

end Tidy

end Tree

end Xv6
