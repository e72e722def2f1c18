/-
**One call and the exactness of link counts.**

Adding a link to a linked directory, removing a link and freeing what nothing refers to keep a tree
tidy. A link added to a directory without links, or a count raised past the greatest `short`, leaves
a wrong count.
-/

import Xv6.Names.Count

namespace Xv6

open Lib Finset

namespace Tree

/-- The counts are those of the entries. -/
def Exact (t : Tree) (n : Nat) : Prop := ∀ i, t.Live i → (t.nlink i).toInt = t.refs n i

section Tidy

variable {t t' : Tree} {n d i : Nat} {r : Option Nat} {S : Set Nat}

theorem Tidy.nlink_nonneg (tidy : t.Tidy n) (i : Nat) : 0 ≤ (t.nlink i).toInt := by
  rw [tidy.nlink_eq]
  omega

theorem toInt_zero : (0 : Int16).toInt = 0 := rfl

/-- A link added to a linked directory keeps a tree tidy. -/
theorem Tidy.attach (tidy : t.Tidy n) (attach : t.Attach n d i r t') (linked : t.nlink d ≠ 0)
    (below : ∀ j, r = some j → (t.nlink j).toInt < 32767) : t'.Tidy n := by
  have added := attach.added tidy.sound.toShape
  have sound' := attach.sound tidy.sound below
  have nlink := attach.nlink tidy.sound.toShape
  -- A count that was raised is positive.
  have raised : ∀ j, t'.Dir j → j = i ∨ r = some j → t'.nlink j ≠ 0 := by
    intro j dir' either zero
    have link : 0 < t'.edge d i := added.pos.mpr (.inr ⟨rfl, rfl⟩)
    rcases either with rfl | some'
    · exact link.ne' (sound'.edge_eq_zero zero d)
    · have positive := tidy.nlink_nonneg j
      rw [nlink, if_pos (.inr some')] at zero
      have := toInt_succ (below j some')
      rw [zero, toInt_zero] at this
      omega
  refine ⟨sound', ?_, ?_⟩
  · intro j dir' unlinked b
    have unraised : ¬ (j = i ∨ r = some j) := fun either => raised j dir' either unlinked
    rw [nlink, if_neg unraised] at unlinked
    have other : j ≠ d := by
      rintro rfl
      exact linked unlinked
    rw [added j b, if_neg fun both => other both.1, Nat.add_zero]
    exact tidy.empty j ((attach.dir_iff fun same => unraised (.inl same)).mp dir') unlinked b
  · intro j dir' linked'
    have more : ∀ a b, 0 < t.edge a b → 0 < t'.edge a b := fun a b link => added.pos.mpr (.inl link)
    by_cases new : j = i
    · subst new
      refine Relation.ReflTransGen.tail (Reaches.mono more (tidy.reached d attach.dir' linked)) ?_
      exact added.pos.mpr (.inr ⟨rfl, rfl⟩)
    · have dir := (attach.dir_iff new).mp dir'
      refine Reaches.mono more ?_
      by_cases same : j = d
      · exact same ▸ tidy.reached d attach.dir' linked
      · refine tidy.reached j dir fun unlinked => linked' ?_
        have unraised : ¬ (j = i ∨ r = some j) := by
          rintro (here | some')
          · exact new here
          · cases attach with
            | file => cases some'
            | dir => exact same (Option.some.inj some').symm
            | link => exact new (Option.some.inj some').symm
        rw [nlink, if_neg unraised]
        exact unlinked

/-- Removing a file or an empty directory keeps a tree tidy. -/
theorem Tidy.unlink (tidy : t.Tidy n) {p : Nat} {de : Dirent} (dir : t.Dir d)
    (at' : (t.ents d)[p]? = some de) (proper : de.proper = true)
    (empty : t.Dir de.inum.toNat → t.Empty de.inum.toNat) :
    (t.unlink d p de.inum.toNat).Tidy n := by
  have sound := tidy.sound
  have sound' := sound.unlink dir at' proper
  have edges : (t.unlink d p de.inum.toNat).edge = (t.clear d p).edge := by
    unfold edge
    rw [ents_unlink]
  have added : Added (t.unlink d p de.inum.toNat).edge t.edge d de.inum.toNat :=
    edges ▸ added_clear at' proper
  have link : 0 < t.edge d de.inum.toNat := added.pos.mpr (.inr ⟨rfl, rfl⟩)
  have types := t.type_unlink d p de.inum.toNat
  have dirs : ∀ j, (t.unlink d p de.inum.toNat).Dir j ↔ t.Dir j := by
    intro j
    unfold Dir
    rw [types]
  -- The inode has no links out: it is a file, or an empty directory.
  have leaf : ∀ b, t.edge de.inum.toNat b = 0 := by
    intro b
    by_cases isDir : t.Dir de.inum.toNat
    · by_contra some'
      obtain ⟨entry, member, proper', _⟩ := edge_pos.mp (Nat.pos_of_ne_zero some')
      obtain ⟨q, at''⟩ := List.getElem?_of_mem member
      have from' := (sound.dots _ isDir).two_le_of_proper at'' proper'
      exact (Dirent.proper_iff.mp proper').1 (empty isDir q entry from' at'')
    · exact sound.edge_of_not_dir isDir
  have other : d ≠ de.inum.toNat := by
    intro same
    rw [← same] at leaf link
    exact link.ne' (leaf d)
  have reached : ∀ j, j ≠ de.inum.toNat → Reaches t.edge ROOTINO j →
      Reaches (t.unlink d p de.inum.toNat).edge ROOTINO j :=
    fun j differs reaches => reaches.of_removed added leaf differs
  have parent' := reached d other (tidy.reached_of_edge link)
  have nlink := t.nlink_unlink d p de.inum.toNat
  refine ⟨sound', ?_, ?_⟩
  · intro j dir' unlinked b
    have differs : j ≠ d := by
      rintro rfl
      exact sound'.reached_linked parent' unlinked
    have before : t.edge j b = 0 := by
      by_cases same : j = de.inum.toNat
      · rw [same]
        exact leaf b
      · rw [nlink, if_neg same, if_neg fun both => differs both.1] at unlinked
        exact tidy.empty j ((dirs j).mp dir') unlinked b
    have := added j b
    omega
  · intro j dir' linked
    have differs : j ≠ de.inum.toNat := by
      rintro rfl
      -- The only link to a directory was removed.
      have isDir := (dirs _).mp dir'
      refine linked ?_
      have one := sound.single _ isDir
      have before := added.into (sound.mem_range dir.live) de.inum.toNat
      have none' :
          outOf (range n) (t.unlink d p de.inum.toNat).Dir (t.unlink d p de.inum.toNat).edge
            de.inum.toNat = 0 := by
        refine sum_eq_zero fun b _ => ?_
        have := added de.inum.toNat b
        have := leaf b
        omega
      have notRoot := (sound.up d _ link isDir).1
      have count := sound'.count' de.inum.toNat
      unfold owed at count
      rw [none', if_neg notRoot] at count
      rw [if_pos rfl] at before
      have zero : ((t.unlink d p de.inum.toNat).nlink de.inum.toNat).toInt = (0 : Int16).toInt := by
        rw [toInt_zero]
        omega
      exact Int16.toInt_inj.mp zero
    refine reached j differs (tidy.reached j ((dirs j).mp dir') fun unlinked => linked ?_)
    rw [nlink, if_neg differs]
    by_cases here : j = d ∧ t.Dir de.inum.toNat
    · exact absurd unlinked (here.1 ▸ sound.reached_linked (tidy.reached_of_edge link))
    · rw [if_neg here]
      exact unlinked

/-- Freeing unlinked inodes keeps a tree tidy: none of them has entries. -/
theorem Tidy.prune (tidy : t.Tidy n) (unlinked : ∀ i ∈ S, t.nlink i = 0) : (t.prune S).Tidy n := by
  classical
  have sound := tidy.sound
  have noLeak : t.leakAfter n (fun _ => 0) S = fun _ => 0 := by
    funext i
    unfold leakAfter
    split
    · rw [Nat.zero_add]
      refine sum_eq_zero fun d member => ?_
      have freed := (mem_filter.mp member).2
      by_cases dir : t.Dir d
      · exact tidy.empty d dir (unlinked d freed) i
      · exact sound.edge_of_not_dir dir
    · rfl
  have sound' := sound.prune unlinked
  rw [noLeak] at sound'
  refine ⟨sound', ?_, ?_⟩
  · intro d dir zero i
    obtain ⟨kept, dir'⟩ := dir_prune.mp dir
    rw [nlink_prune kept] at zero
    rw [edge_prune kept]
    exact tidy.empty d dir' zero i
  · intro d dir linked
    obtain ⟨kept, dir'⟩ := dir_prune.mp dir
    rw [nlink_prune kept] at linked
    have reaches := tidy.reached d dir' linked
    clear linked dir' dir kept
    induction reaches with
    | refl => exact .refl
    | @tail b c before link ih =>
      have kept : b ∉ S := fun freed => sound.reached_linked before (unlinked b freed)
      refine ih.tail ?_
      rw [edge_prune kept]
      exact link

/-- A link added to an unlinked directory, or one too many, makes some count wrong. -/
theorem Tidy.not_exact (tidy : t.Tidy n) (attach : t.Attach n d i r t')
    (wrong : ¬ (t.nlink d ≠ 0 ∧ ∀ j, r = some j → (t.nlink j).toInt < 32767))
    (unlinked : ∀ j ∈ S, t'.nlink j = 0) : ¬ (t'.prune S).Exact n := by
  classical
  intro exact'
  have sound := tidy.sound
  have nlink := attach.nlink sound.toShape
  have shown : ∀ j, t'.nlink j ≠ 0 → t'.Live j → (t'.nlink j).toInt = (t'.prune S).refs n j := by
    intro j linked live
    have kept : j ∉ S := fun freed => linked (unlinked j freed)
    rw [← exact' j (live_prune.mpr ⟨kept, live⟩), nlink_prune kept]
  by_cases below : ∀ j, r = some j → (t.nlink j).toInt < 32767
  · have orphan : t.nlink d = 0 := by
      by_contra linked
      exact wrong ⟨linked, below⟩
    have unreached : ∀ c, t.Reach c → c ≠ d := by
      rintro c reach rfl
      exact sound.reached_linked (sound.reach_iff.mp reach) orphan
    have same : ∀ c, t.Reach c → (t'.prune S).ents c = t.ents c ∨ (t'.prune S).ents c = [] := by
      intro c reach
      by_cases freed : c ∈ S
      · exact .inr (if_pos freed)
      · rw [ents_prune freed]
        exact .inl (attach.ents (.inr (sound.reached_live (sound.reach_iff.mp reach)))
          (unreached c reach))
    -- What can be reached now could be reached before: the new entry cannot be reached.
    have older : ∀ c, (t'.prune S).Reach c → t.Reach c := by
      intro c reach
      induction reach with
      | refl => exact .refl
      | @tail b c _ leads ih =>
        obtain ⟨de, member, used⟩ := leads
        rcases same b ih with kept | none'
        · rw [kept] at member
          exact ih.tail ⟨de, member, used⟩
        · rw [none'] at member
          cases member
    have fewer : (t'.prune S).refs n i ≤ t.refs n i := by
      unfold refs
      refine le_trans (sum_le_sum fun c member => ?_)
        (sum_le_sum_of_subset (monotone_filter_right (range n) fun c _ => older c))
      rcases same c (older c (mem_filter.mp member).2) with kept | none'
      · rw [kept]
      · rw [none']
        exact Nat.zero_le _
    have room : (t.nlink i).toInt < 32767 := by
      cases attach with
      | file _ _ free =>
        rw [sound.dead i free]
        decide
      | dir _ _ free =>
        rw [sound.dead i free]
        decide
      | link => exact below i rfl
    have up := toInt_succ room
    have count := tidy.nlink_eq i
    have raised : t'.nlink i = t.nlink i + 1 := by rw [nlink, if_pos (.inl rfl)]
    have linked : t'.nlink i ≠ 0 := by
      intro zero
      rw [← raised, zero, toInt_zero] at up
      omega
    have wrongCount := shown i linked ((attach.live_iff i).mpr (.inr rfl))
    rw [raised] at wrongCount
    omega
  · obtain ⟨j, some', top⟩ : ∃ j, r = some j ∧ ¬ (t.nlink j).toInt < 32767 := by
      by_contra none'
      exact below fun j some' => by_contra fun top => none' ⟨j, some', top⟩
    have raised : t'.nlink j = t.nlink j + 1 := by rw [nlink, if_pos (.inr some')]
    have negative := toInt_wrap top
    rw [← raised] at negative
    have live : t.Live j := by
      by_contra free
      rw [sound.dead j free] at top
      exact top (by decide)
    have linked : t'.nlink j ≠ 0 := by
      intro zero
      rw [zero, toInt_zero] at negative
      exact absurd negative (lt_irrefl _)
    have wrongCount := shown j linked ((attach.live_iff j).mpr (.inl live))
    omega

theorem Tidy.change {cwd : Nat} {op : NameOp} (tidy : t.Tidy n) (change : t.Change n cwd op t')
    (fits : ∀ d r, t.Adds cwd d r op → t.nlink d ≠ 0 ∧ ∀ j, r = some j →
    (t.nlink j).toInt < 32767) : t'.Tidy n := by
  cases change with
  | same => exact tidy
  | attach attach adds =>
    obtain ⟨linked, below⟩ := fits _ _ adds
    exact tidy.attach attach linked below
  | unlink _ dir at' proper empty => exact tidy.unlink dir at' proper empty

theorem Tidy.change_not_exact {cwd : Nat} {op : NameOp} (tidy : t.Tidy n)
    (change : t.Change n cwd op t')
    (misfit : ¬ ∀ d r, t.Adds cwd d r op → t.nlink d ≠ 0 ∧ ∀ j, r = some j →
    (t.nlink j).toInt < 32767) (unlinked : ∀ j ∈ S, t'.nlink j = 0) : ¬ (t'.prune S).Exact n := by
  cases change with
  | same none' => exact absurd (fun d r adds => absurd adds (none' d r)) misfit
  | unlink which =>
    subst which
    exact absurd (fun d r adds => adds.elim) misfit
  | attach attach adds only =>
    refine tidy.not_exact attach (fun fits => misfit fun d' r' adds' => ?_) unlinked
    obtain ⟨rfl, rfl⟩ := only d' r' adds'
    exact fits

end Tidy

end Tree

/-! ### Steps -/

namespace Names

/-- **Every count is exact, and an inode that no entry refers to is held.** -/
def Exact (a : Names) (n : Nat) : Prop := ∀ i, a.tree.Live i →
  (a.tree.nlink i).toInt = a.tree.refs n i ∧ (a.tree.refs n i = 0 → a.Held i)

structure Tidy (a : Names) (n : Nat) : Prop where
  tree : a.tree.Tidy n
  held : ∀ i, a.Held i → a.tree.Live i
  kept : ∀ i, a.tree.Live i → a.tree.nlink i = 0 → a.Held i

/-- **The entry that the call adds goes to a directory with links, and no count wraps.** -/
def Linkable (a : Names) (e : Fin NPROC × NameOp) : Prop :=
  ∀ cwd, a.hold (.cwd e.1) = some cwd → ∀ d r, a.tree.Adds cwd d r e.2 →
    a.tree.nlink d ≠ 0 ∧ ∀ j, r = some j → (a.tree.nlink j).toInt < 32767

section Step

variable {a b : Names} {n : Nat} {e : Fin NPROC × NameOp}

theorem Tidy.exact (tidy : a.Tidy n) : a.Exact n := by
  intro i live
  refine ⟨tidy.tree.nlink_eq i, fun none' => tidy.kept i live ?_⟩
  have count := tidy.tree.nlink_eq i
  rw [none'] at count
  exact Int16.toInt_inj.mp count

theorem Tidy.collect (tree : a.tree.Tidy n) (held : ∀ i, a.Held i → a.tree.Live i) :
    a.collect.Tidy n where
  tree := tree.prune fun _ member => member.1
  held i held' := Tree.live_prune.mpr ⟨fun member => member.2 held', held i held'⟩
  kept i live unlinked := by
    obtain ⟨kept, _⟩ := Tree.live_prune.mp live
    by_contra none'
    refine kept ⟨?_, none'⟩
    rw [← Tree.nlink_prune (t := a.tree) kept]
    exact unlinked

/-- **One step**: a call keeps the counts exact if and only if its entry goes to a linked directory
and no count wraps. -/
theorem Tidy.step (tidy : a.Tidy n) (step : a.Step n e b) :
    (a.Linkable e → b.Tidy n) ∧ (¬ a.Linkable e → ¬ b.Exact n) := by
  unfold Step at step
  split at step
  · next idle =>
    subst step
    refine ⟨fun _ => tidy, fun unlinkable => absurd ?_ unlinkable⟩
    intro cwd current
    rw [idle] at current
    cases current
  · next cwd current =>
    obtain ⟨c, edits, rfl⟩ := step
    have held := edits.held tidy.held
    have linkable : (∀ d r, a.tree.Adds cwd d r e.2 → a.tree.nlink d ≠ 0 ∧
        ∀ j, r = some j → (a.tree.nlink j).toInt < 32767) ↔ a.Linkable e := by
      constructor
      · intro all cwd' current'
        rw [current] at current'
        cases current'
        exact all
      · intro all
        exact all cwd current
    rw [← linkable]
    refine ⟨fun fits => .collect (tidy.tree.change edits.change fits) held, fun misfit exact' => ?_⟩
    exact tidy.tree.change_not_exact edits.change misfit (fun _ member => member.1)
      fun i live => (exact' i live).1

end Step

end Names

end Xv6
