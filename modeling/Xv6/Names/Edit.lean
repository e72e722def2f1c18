/-
**What the calls do to the name space.**

`mkFile`, `mkDir` and `link` add a link, `unlink` removes one, and `prune` frees inodes without
links: each keeps the counts right, as long as no count passes the greatest `short`.
-/

import Xv6.Names.Sound

namespace Xv6

open Lib Finset Function

/-! ### Counts of type `short` -/

theorem toInt_succ {x : Int16} (below : x.toInt < 32767) : (x + 1).toInt = x.toInt + 1 := by
  have low := x.le_toInt
  rw [Int16.toInt_add]
  show (x.toInt + 1).bmod 65536 = _
  rw [Int.bmod_eq_of_le] <;> omega

theorem toInt_pred {x : Int16} (above : -32768 < x.toInt) : (x - 1).toInt = x.toInt - 1 := by
  have high := x.toInt_lt
  rw [Int16.toInt_sub]
  show (x.toInt - 1).bmod 65536 = _
  rw [Int.bmod_eq_of_le] <;> omega

/-- A count raised past the greatest `short` is negative. -/
theorem toInt_wrap {x : Int16} (top : ¬ x.toInt < 32767) : (x + 1).toInt < 0 := by
  have high := x.toInt_lt
  have top' : x.toInt = 32767 := by omega
  rw [Int16.toInt_add, top']
  decide

namespace Tree

section Edit

variable {t a : Tree} {n d i p : Nat} {leak : Nat → Nat} {name : List UInt8} {de : Dirent}
  {type : Int16} {l : List Dirent}

/-! ### Adding a link -/

/-- A new entry is one more link and no new parent. -/
theorem Shape.place (shape : t.Shape n) (dir : t.Dir d) (number : 0 < i ∧ i < n)
    (absent : findIn name (t.ents d) = none) : (t.place d name i).Shape n ∧
      Added t.edge (t.place d name i).edge d i ∧ ∀ j, (t.place d name i).parent j = t.parent j := by
  have dotted := shape.dots d dir
  have positive := (shape.bounded d dir.live).1
  have target : 0 < i ∧ i < 2 ^ 16 := ⟨number.1, number.2.trans_le shape.small⟩
  have proper := dotted.proper_link positive target absent
  obtain ⟨dotted', second⟩ := dotted.splice (dotted.two_le_emptyIn positive) (emptyIn_le _)
    fun _ => ⟨proper, by rw [Dirent.toNat_link target.2]; exact number.2⟩
  refine ⟨shape.setEnts dir dotted', added_place target proper, fun j => ?_⟩
  unfold parent
  show (update t.ents d _ j)[1]?.elim 0 _ = _
  by_cases same : j = d
  · rw [same, update_self, second]
  · rw [update_of_ne same]

theorem Sound.place (sound : t.Sound n leak) (shape : a.Shape n) (edges : a.edge = t.edge)
    (ents : ∀ j, t.Dir j → a.ents j = t.ents j) (dir : t.Dir d) (number : 0 < i ∧ i < n)
    (absent : findIn name (t.ents d) = none) (lives : ∀ j, a.Live j ↔ t.Live j ∨ j = i)
    (dirs : ∀ j, a.Dir j ↔ t.Dir j ∨ j = i ∧ a.Dir i) (plain : t.Live i → ¬ a.Dir i)
    (new : a.Dir i → a.parent i = d)
    (nlinks : ∀ j, (a.nlink j).toInt = (t.nlink j).toInt + (if j = i then 1 else 0) +
      if j = d ∧ a.Dir i then 1 else 0) : (a.place d name i).Sound n leak := by
  have absent' : findIn name (a.ents d) = none := by
    rw [ents d dir]
    exact absent
  obtain ⟨shape', added, parents⟩ := shape.place ((dirs d).mpr (.inl dir)) number absent'
  rw [edges] at added
  refine sound.attach shape' dir added lives dirs plain (fun j dir' => ?_)
    (fun dir' => (parents i).trans (new dir')) nlinks
  rw [parents]
  unfold parent
  rw [ents j dir']

theorem edge_add (plain : ¬ t.Dir i) (shape : t.Shape n)
    (none' : ∀ b, l.countP (Dirent.names b) = 0) : (t.add i type l).edge = t.edge := by
  funext c b
  by_cases same : c = i
  · subst same
    rw [shape.edge_of_not_dir plain]
    unfold edge add
    simp only [update_self]
    exact none' b
  · unfold edge add
    simp only [update_of_ne same]

theorem countP_dots (i d b : Nat) :
    (Dirent.dots i d).countP (Dirent.names b) = 0 := by
  have dot : (Dirent.link [46] i).names b = false := by
    have named : namecmp [46] (Dirent.link [46] i).name = 0 :=
      namecmp_eq_zero.mpr (strncpy_strncpy _ _).symm
    simp [Dirent.names, Dirent.proper, named]
  have dotdot : (Dirent.link [46, 46] d).names b = false := by
    have named : namecmp [46, 46] (Dirent.link [46, 46] d).name = 0 :=
      namecmp_eq_zero.mpr (strncpy_strncpy _ _).symm
    simp [Dirent.names, Dirent.proper, named]
  simp [Dirent.dots, dot, dotdot]

theorem type_add (t : Tree) (i : Nat) (type : Int16) (l : List Dirent) (j : Nat) :
    (t.add i type l).type j = if j = i then type else t.type j := update_apply ..

theorem live_add (allocated : type ≠ 0) (l : List Dirent) (j : Nat) :
    (t.add i type l).Live j ↔ t.Live j ∨ j = i := by
  unfold Live
  rw [type_add]
  by_cases same : j = i
  · rw [if_pos same]
    exact iff_of_true allocated (.inr same)
  · rw [if_neg same]
    exact (or_iff_left same).symm

theorem ents_add_of_dir (free : ¬ t.Live i) {j : Nat} (dir : t.Dir j) :
    (t.add i type l).ents j = t.ents j := by
  have other : j ≠ i := by
    rintro rfl
    exact free dir.live
  exact update_of_ne other ..

/-- `create` of a file keeps the counts right. -/
theorem Sound.mkFile (sound : t.Sound n leak) (dir : t.Dir d) (number : 0 < i ∧ i < n)
    (free : ¬ t.Live i) (allocated : type ≠ 0) (file : type ≠ T_DIR)
    (absent : findIn name (t.ents d) = none) : (t.mkFile d name i type).Sound n leak := by
  have plain : ¬ (t.add i type []).Dir i := by
    unfold Dir
    rw [type_add, if_pos rfl]
    exact file
  have shape : (t.add i type []).Shape n :=
    sound.toShape.add free number allocated (fun _ => rfl) fun same => absurd same file
  refine sound.place shape (edge_add (fun dir' => free dir'.live) sound.toShape fun _ => rfl)
    (fun j dir' => ents_add_of_dir free dir') dir number absent (live_add allocated []) ?_
    (fun _ => plain) (fun dir' => absurd dir' plain) ?_
  · intro j
    unfold Dir
    rw [type_add, type_add, if_pos rfl]
    by_cases same : j = i
    · rw [if_pos same, same]
      exact iff_of_false file fun either =>
        either.elim (fun dir' => free (Dir.live dir')) fun both => file both.2
    · rw [if_neg same]
      exact (or_iff_left fun both => same both.1).symm
  · intro j
    have zero := sound.dead i free
    have none' : ¬ (j = d ∧ (t.add i type []).Dir i) := fun both => plain both.2
    show (update t.nlink i 1 j).toInt = _
    rw [if_neg none']
    by_cases same : j = i
    · rw [same, update_self, if_pos rfl, zero]
      rfl
    · rw [update_of_ne same, if_neg same]
      omega

/-- `create` of a directory keeps the counts right: its `..` is counted in its parent. -/
theorem Sound.mkDir (sound : t.Sound n leak) (dir : t.Dir d) (number : 0 < i ∧ i < n)
    (free : ¬ t.Live i) (absent : findIn name (t.ents d) = none)
    (below : (t.nlink d).toInt < 32767) : (t.mkDir d name i).Sound n leak := by
  have other : d ≠ i := by
    rintro rfl
    exact free dir.live
  have up := sound.bounded d dir.live
  have dotted : Dotted n i (Dirent.dots i d) :=
    .new (number.2.trans_le sound.small) up sound.small
  have made : ∀ j, (t.add i T_DIR (Dirent.dots i d)).Dir j ↔ t.Dir j ∨ j = i := by
    intro j
    unfold Dir
    rw [type_add]
    by_cases same : j = i
    · rw [if_pos same]
      exact iff_of_true rfl (.inr same)
    · rw [if_neg same]
      exact (or_iff_left same).symm
  have shape : (t.add i T_DIR (Dirent.dots i d)).Shape n :=
    sound.toShape.add free number (by decide) (fun differs => absurd rfl differs) fun _ => dotted
  have newDir := (made i).mpr (.inr rfl)
  have lives : ∀ j, (t.add i T_DIR (Dirent.dots i d)).Live j ↔ t.Live j ∨ j = i :=
    live_add (by decide) _
  have ents : ∀ j, t.Dir j → (t.add i T_DIR (Dirent.dots i d)).ents j = t.ents j :=
    fun j dir' => ents_add_of_dir free dir'
  have edges : (t.add i T_DIR (Dirent.dots i d)).edge = t.edge :=
    edge_add (fun dir' => free dir'.live) sound.toShape (countP_dots i d)
  refine sound.place (shape.setNlink ((made d).mpr (.inl dir)).live _) edges ents dir number
    absent lives
    ?_ (fun live => absurd live free) ?_ ?_
  · intro j
    rw [show (((t.add i T_DIR _).setNlink d _).Dir j ↔ _) from made j]
    exact or_congr_right ⟨fun same => ⟨same, newDir⟩, fun both => both.1⟩
  · intro _
    show (update t.ents i (Dirent.dots i d) i)[1]?.elim 0 _ = d
    rw [update_self]
    exact Dirent.toNat_link (up.2.trans_le sound.small)
  · intro j
    have zero := sound.dead i free
    show (update (update t.nlink i 1) d (t.nlink d + 1) j).toInt = _
    by_cases parent' : j = d
    · rw [parent', update_self, if_neg other, if_pos ⟨rfl, newDir⟩, toInt_succ below]
      omega
    · have none' :
          ¬ (j = d ∧ ((t.add i T_DIR (Dirent.dots i d)).setNlink d (t.nlink d + 1)).Dir i) :=
        fun both => parent' both.1
      rw [update_of_ne parent', if_neg none']
      by_cases same : j = i
      · rw [same, update_self, if_pos rfl, zero]
        rfl
      · rw [update_of_ne same, if_neg same]
        omega

/-- `link` keeps the counts right. -/
theorem Sound.link (sound : t.Sound n leak) (dir : t.Dir d) (live : t.Live i) (plain : ¬ t.Dir i)
    (absent : findIn name (t.ents d) = none) (below : (t.nlink i).toInt < 32767) :
    (t.link d name i).Sound n leak := by
  refine sound.place (sound.toShape.setNlink live _) rfl (fun _ _ => rfl) dir (sound.bounded i live)
    absent ?_ ?_ (fun _ => plain) (fun dir' => absurd dir' plain) ?_
  · intro j
    refine (or_iff_left_of_imp ?_).symm
    rintro rfl
    exact live
  · intro j
    exact (or_iff_left fun both => plain both.2).symm
  · intro j
    have none' : ¬ (j = d ∧ t.Dir i) := fun both => plain both.2
    show (update t.nlink i (t.nlink i + 1) j).toInt =
      (t.nlink j).toInt + (if j = i then 1 else 0) + if j = d ∧ t.Dir i then 1 else 0
    rw [if_neg none']
    by_cases same : j = i
    · rw [same, update_self, if_pos rfl, toInt_succ below]
      omega
    · rw [update_of_ne same, if_neg same]
      omega

/-! ### What the counts say -/

theorem Sound.linked_of_edge (sound : t.Sound n leak) (link : 0 < t.edge d i) :
    1 ≤ (t.nlink i).toInt := by
  have dir := sound.dir_of_edge link
  have count := sound.count' i
  have enough : t.edge d i ≤ t.owed n i :=
    (le_into (sound.mem_range dir.live)).trans (by unfold owed; omega)
  omega

theorem Sound.edge_eq_zero (sound : t.Sound n leak) (unlinked : t.nlink i = 0) (d : Nat) :
    t.edge d i = 0 := by
  by_contra link
  have linked := sound.linked_of_edge (Nat.pos_of_ne_zero link)
  rw [unlinked] at linked
  exact absurd linked (by decide)

theorem Sound.linked_of_subdir (sound : t.Sound n leak) (link : 0 < t.edge d i) (dir : t.Dir i) :
    1 ≤ (t.nlink d).toInt := by
  have count := sound.count' d
  have enough : t.edge d i ≤ t.owed n d :=
    (le_outOf (sound.mem_range dir.live) dir).trans (by unfold owed; omega)
  omega

theorem Sound.root_linked (sound : t.Sound n leak) : t.nlink ROOTINO ≠ 0 := by
  intro unlinked
  have count := sound.count' ROOTINO
  have enough : 1 ≤ t.owed n ROOTINO := by
    unfold owed
    rw [if_pos rfl]
    omega
  rw [unlinked] at count
  have zero : (0 : Int16).toInt = 0 := rfl
  omega

/-! ### Removing a link -/

/-- An entry cleared is one link less. -/
theorem Shape.clear (shape : t.Shape n) (dir : t.Dir d) (at' : (t.ents d)[p]? = some de)
    (proper : de.proper = true) : (t.clear d p).Shape n ∧
      Added (t.clear d p).edge t.edge d de.inum.toNat ∧
      ∀ j, (t.clear d p).parent j = t.parent j := by
  have dotted := shape.dots d dir
  obtain ⟨dotted', second⟩ := dotted.splice (dotted.two_le_of_proper at' proper)
    (List.getElem?_eq_some_iff.mp at').1.le (show Dirent.free.inum ≠ 0 →
      _ from fun used => absurd rfl used)
  refine ⟨shape.setEnts dir dotted', added_clear at' proper, fun j => ?_⟩
  unfold parent
  show (update t.ents d _ j)[1]?.elim 0 _ = _
  by_cases same : j = d
  · rw [same, update_self, second]
  · rw [update_of_ne same]

theorem mem_clear {de : Dirent} {j : Nat} (at' : (t.ents d)[p]? = some entry)
    (member : de ∈ (t.clear d p).ents j) : de ∈ t.ents j ∨ de = Dirent.free := by
  have member' : de ∈ update t.ents d (splice (t.ents d) p [Dirent.free]) j := member
  by_cases same : j = d
  · subst same
    rw [update_self] at member'
    obtain ⟨q, here⟩ := List.getElem?_of_mem member'
    rw [getElem?_splice (List.getElem?_eq_some_iff.mp at').1.le] at here
    split at here
    · exact .inl (List.mem_of_getElem? here)
    · split at here
      · exact .inr (List.mem_singleton.mp (List.mem_of_getElem? here))
      · exact .inl (List.mem_of_getElem? here)
  · rw [update_of_ne same] at member'
    exact .inl member'

theorem nlink_unlink (t : Tree) (d p i j : Nat) : (t.unlink d p i).nlink j =
    if j = i then (if i = d ∧ t.Dir i then t.nlink d - 1 else t.nlink i) - 1
    else if j = d ∧ t.Dir i then t.nlink d - 1 else t.nlink j := by
  unfold unlink
  by_cases dir : t.Dir i
  · simp only [and_true, dir]
    show update (update t.nlink d (t.nlink d - 1)) i
      (update t.nlink d (t.nlink d - 1) i - 1) j = _
    simp only [update_apply]
  · simp only [and_false, dir, if_false]
    show update t.nlink i (t.nlink i - 1) j = _
    rw [update_apply]

theorem type_unlink (t : Tree) (d p i : Nat) : (t.unlink d p i).type = t.type := by
  unfold unlink
  by_cases dir : t.Dir i
  · rw [if_pos dir]
    rfl
  · rw [if_neg dir]
    rfl

theorem ents_unlink (t : Tree) (d p i : Nat) : (t.unlink d p i).ents = (t.clear d p).ents := by
  unfold unlink
  by_cases dir : t.Dir i
  · rw [if_pos dir]
    rfl
  · rw [if_neg dir]
    rfl

/-- `unlink` keeps the counts right. -/
theorem Sound.unlink (sound : t.Sound n leak) (dir : t.Dir d) (at' : (t.ents d)[p]? = some de)
    (proper : de.proper = true) : (t.unlink d p de.inum.toNat).Sound n leak := by
  obtain ⟨shape, added, parents⟩ := sound.toShape.clear dir at' proper
  have link : 0 < t.edge d de.inum.toNat := added.pos.mpr (.inr ⟨rfl, rfl⟩)
  have live := sound.live d _ link
  have ents := t.ents_unlink d p de.inum.toNat
  have edges : (t.unlink d p de.inum.toNat).edge = (t.clear d p).edge := by
    unfold edge
    rw [ents]
  have types := t.type_unlink d p de.inum.toNat
  have shape' : (t.unlink d p de.inum.toNat).Shape n := by
    unfold Tree.unlink
    by_cases dir' : t.Dir de.inum.toNat
    · rw [if_pos dir']
      exact (shape.setNlink dir.live _).setNlink live _
    · rw [if_neg dir']
      exact shape.setNlink live _
  -- Both counts are at least one, so neither wraps.
  have first : 1 ≤ (t.nlink de.inum.toNat).toInt := sound.linked_of_edge link
  have second : t.Dir de.inum.toNat → 1 ≤ (t.nlink d).toInt := sound.linked_of_subdir link
  refine sound.detach shape' (edges ▸ added) types (fun j _ => ?_) fun j => ?_
  · rw [← parents j]
    unfold parent
    rw [ents]
  · rw [nlink_unlink]
    by_cases same : j = de.inum.toNat
    · subst same
      rw [if_pos rfl, if_pos rfl]
      by_cases here : de.inum.toNat = d ∧ t.Dir de.inum.toNat
      · have below := toInt_pred (x := t.nlink d) (by have := second here.2; omega)
        rw [if_pos here, if_pos here, toInt_pred (by have := second here.2; omega), below, here.1]
      · rw [if_neg here, if_neg here, toInt_pred (by omega)]
        omega
    · rw [if_neg same, if_neg same]
      by_cases here : j = d ∧ t.Dir de.inum.toNat
      · rw [if_pos here, if_pos here, here.1, toInt_pred (by have := second here.2; omega)]
        omega
      · rw [if_neg here, if_neg here]
        omega

/-! ### Freeing inodes -/

variable {S : Set Nat}

theorem type_prune (t : Tree) (i : Nat) [Decidable (i ∈ S)] :
    (t.prune S).type i = if i ∈ S then 0 else t.type i := by
  simp only [prune]
  congr

theorem live_prune : (t.prune S).Live i ↔ i ∉ S ∧ t.Live i := by
  classical
  unfold Live
  rw [type_prune]
  by_cases freed : i ∈ S
  · rw [if_pos freed]
    exact iff_of_false (fun live => live rfl) fun both => both.1 freed
  · rw [if_neg freed]
    exact (and_iff_right freed).symm

theorem dir_prune : (t.prune S).Dir i ↔ i ∉ S ∧ t.Dir i := by
  classical
  unfold Dir
  rw [type_prune]
  by_cases freed : i ∈ S
  · rw [if_pos freed]
    exact iff_of_false (by decide) fun both => both.1 freed
  · rw [if_neg freed]
    exact (and_iff_right freed).symm

theorem ents_prune (kept : i ∉ S) : (t.prune S).ents i = t.ents i := if_neg kept

theorem nlink_prune (kept : i ∉ S) : (t.prune S).nlink i = t.nlink i := if_neg kept

theorem edge_prune (kept : d ∉ S) (i : Nat) : (t.prune S).edge d i = t.edge d i := by
  unfold edge
  rw [ents_prune kept]

theorem edge_pruned (freed : d ∈ S) (i : Nat) : (t.prune S).edge d i = 0 := by
  unfold edge
  rw [show (t.prune S).ents d = [] from if_pos freed]
  rfl

/-- What directories that are freed with entries in them leave behind. -/
noncomputable def leakAfter (t : Tree) (n : Nat) (leak : Nat → Nat) (S : Set Nat) (i : Nat) : Nat :=
  open Classical in
  if (t.prune S).Live i then leak i + ∑ d ∈ range n with d ∈ S, t.edge d i else 0

/-- Freeing unlinked inodes keeps the counts right, up to what their entries leak. -/
theorem Sound.prune (sound : t.Sound n leak) (unlinked : ∀ i ∈ S, t.nlink i = 0) :
    (t.prune S).Sound n (t.leakAfter n leak S) := by
  classical
  have root : ROOTINO ∉ S := fun freed => sound.root_linked (unlinked _ freed)
  have kept : ∀ d i, 0 < t.edge d i → i ∉ S := fun d i link freed =>
    link.ne' (sound.edge_eq_zero (unlinked i freed) d)
  have older : ∀ d i, 0 < (t.prune S).edge d i → d ∉ S ∧ 0 < t.edge d i := by
    intro d i link
    have stays : d ∉ S := fun freed => link.ne' (edge_pruned freed i)
    exact ⟨stays, edge_prune stays i ▸ link⟩
  have shape : (t.prune S).Shape n := by
    refine ⟨sound.small, fun i live => sound.bounded i (live_prune.mp live).2, ?_, ?_, ?_, ?_⟩
    · intro i plain
      by_cases freed : i ∈ S
      · exact if_pos freed
      · rw [ents_prune freed]
        exact sound.plain i fun dir => plain (dir_prune.mpr ⟨freed, dir⟩)
    · intro i free
      by_cases freed : i ∈ S
      · exact if_pos freed
      · rw [nlink_prune freed]
        exact sound.dead i fun live => free (live_prune.mpr ⟨freed, live⟩)
    · exact dir_prune.mpr ⟨root, sound.root⟩
    · intro d dir
      obtain ⟨stays, dir'⟩ := dir_prune.mp dir
      rw [ents_prune stays]
      exact sound.dots d dir'
  have parents : ∀ i, i ∉ S → (t.prune S).parent i = t.parent i := by
    intro i stays
    unfold parent
    rw [ents_prune stays]
  refine { shape with live := ?_, up := ?_, rootUp := ?_, single := ?_, count := ?_, fresh := ?_ }
  · intro d i link
    have before := (older d i link).2
    exact live_prune.mpr ⟨kept d i before, sound.live d i before⟩
  · intro d i link dir
    obtain ⟨stays, dir'⟩ := dir_prune.mp dir
    rw [parents i stays]
    exact sound.up d i (older d i link).2 dir'
  · rw [parents _ root, sound.rootUp]
  · intro i dir
    refine le_trans (sum_le_sum fun d _ => ?_) (sound.single i (dir_prune.mp dir).2)
    by_cases freed : d ∈ S
    · rw [edge_pruned freed]
      exact Nat.zero_le _
    · rw [edge_prune freed]
  · intro i live
    obtain ⟨stays, live'⟩ := live_prune.mp live
    have incoming : into (range n) t.edge i =
        into (range n) (t.prune S).edge i + ∑ d ∈ range n with d ∈ S, t.edge d i := by
      unfold into
      rw [sum_filter, ← sum_add_distrib]
      refine sum_congr rfl fun d _ => ?_
      by_cases freed : d ∈ S
      · rw [edge_pruned freed, if_pos freed, Nat.zero_add]
      · rw [edge_prune freed, if_neg freed, Nat.add_zero]
    have outgoing : outOf (range n) (t.prune S).Dir (t.prune S).edge i =
        outOf (range n) t.Dir t.edge i := by
      have same : outOf (range n) (t.prune S).Dir (t.prune S).edge i =
          outOf (range n) (t.prune S).Dir t.edge i := sum_congr rfl fun b _ => edge_prune stays b
      rw [same]
      exact outOf_congr fun b link => dir_prune.trans (and_iff_right (kept i b link))
    have count := sound.count i live'
    rw [nlink_prune stays, count]
    unfold leakAfter owed
    rw [if_pos live, incoming, outgoing]
    omega
  · intro i free
    exact if_neg free

end Edit

/-! ### Freed inodes -/

/-- Some inodes without links were freed. -/
def Freed (t t' : Tree) : Prop := ∃ S : Set Nat, (∀ i ∈ S, t.nlink i = 0) ∧ t' = t.prune S

section Freed

variable {t t' t'' : Tree} {S S' : Set Nat} {i : Nat}

theorem prune_empty (t : Tree) : t.prune ∅ = t :=
  Tree.ext (funext fun _ => if_neg (Set.notMem_empty _))
    (funext fun _ => if_neg (Set.notMem_empty _)) (funext fun _ => if_neg (Set.notMem_empty _))

theorem prune_prune (t : Tree) (S S' : Set Nat) : (t.prune S).prune S' = t.prune (S ∪ S') := by
  refine Tree.ext (funext fun j => ?_) (funext fun j => ?_) (funext fun j => ?_)
  all_goals
    by_cases here : j ∈ S <;> by_cases there : j ∈ S' <;> simp [prune, here, there]

theorem Freed.refl (t : Tree) : t.Freed t :=
  ⟨∅, fun _ absurdity => absurdity.elim, t.prune_empty.symm⟩

theorem Freed.trans (first : t.Freed t') (second : t'.Freed t'') : t.Freed t'' := by
  obtain ⟨S, unlinked, rfl⟩ := first
  obtain ⟨S', unlinked', rfl⟩ := second
  refine ⟨S ∪ S', ?_, ?_⟩
  · rintro i member
    by_cases here : i ∈ S
    · exact unlinked i here
    · rw [← nlink_prune (t := t) here]
      exact unlinked' i (member.resolve_left here)
  · exact prune_prune t S S'

/-- An inode that was not freed keeps its type and its count. -/
theorem Freed.kept (freed : t.Freed t') (live : t'.Live i) :
    t.Live i ∧ t'.type i = t.type i ∧ t'.nlink i = t.nlink i := by
  obtain ⟨S, _, rfl⟩ := freed
  obtain ⟨kept, live'⟩ := live_prune.mp live
  exact ⟨live', if_neg kept, if_neg kept⟩

theorem Freed.setNlink (freed : t.Freed t') (live : t'.Live i) (x : Int16) :
    (t.setNlink i x).Freed (t'.setNlink i x) := by
  obtain ⟨S, unlinked, rfl⟩ := freed
  have kept : i ∉ S := (live_prune.mp live).1
  refine ⟨S, ?_, ?_⟩
  · intro j member
    show update t.nlink i x j = 0
    have other : j ≠ i := by
      rintro rfl
      exact kept member
    rw [update_of_ne other]
    exact unlinked j member
  · refine Tree.ext rfl (funext fun j => ?_) rfl
    show update (t.prune S).nlink i x j = ((t.setNlink i x).prune S).nlink j
    by_cases same : j = i
    · subst same
      rw [update_self, nlink_prune kept]
      exact (update_self j x t.nlink).symm
    · rw [update_of_ne same]
      by_cases freed : j ∈ S
      · rw [show (t.prune S).nlink j = 0 from if_pos freed]
        exact (if_pos freed).symm
      · rw [nlink_prune freed, nlink_prune freed]
        exact (update_of_ne same x t.nlink).symm

end Freed

end Tree

end Xv6
