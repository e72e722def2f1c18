/-
**Link counts and directory entries in every run.**

`System.boot` is the system behind `userinit`: the first process has the root directory, and nothing
else is open. From a well-formed image every run of completed calls is a run of the machine of
names, so the two exact invariants of that machine are facts about the kernel: `linkCounts_iff`, on
link counts, and `entries_allocated_iff`, on directory entries.
-/

import Xv6.Mkfs.Boot
import Xv6.Names.Access
import Xv6.Names.Exact
import Xv6.Syscall.Steps

namespace Xv6

open Lib Finset

namespace System

/-- **After boot**: `userinit` gave the first process the root directory as its current
directory. -/
def boot (fs : Fs) : System where
  kernel := (Kernel.boot fs).setInode rootSlot ⟨ROOTDEV, ROOTINO, 1, false, false, .zero⟩
  ftable _ := ⟨.none, 0, false, false, 0, rootSlot, 0⟩
  pipes _ := ⟨fun _ => 0, 0, 0, false, false⟩
  proc p := ⟨0, 0, false, if p = initproc then some rootSlot else none, fun _ => none⟩

end System

/-- **A well-formed image.** Its blocks and counts are right, the log is empty or below itself, and
every inode has a link. -/
structure Fs.Image (fs : Fs) : Prop where
  wellFormed : fs.view.WellFormed
  apart : fs.Apart
  tree : fs.view.tree.Tidy fs.readsb.ninodes.toNat
  linked : ∀ i, fs.view.tree.Live i → fs.view.tree.nlink i ≠ 0

namespace System

section Boot

variable {fs : Fs}

theorem users_boot (fs : Fs) (s : Slot) : (boot fs).users s = if s = rootSlot then 1 else 0 := by
  have procs :
      ∀ p, ((boot fs).proc p).uses s = if p = initproc then (if s = rootSlot then 1 else 0)
      else 0 := by
    intro p
    show (if (if p = initproc then some rootSlot else none) = some s then 1 else 0) = _
    by_cases first : p = initproc
    · rw [if_pos first, if_pos first]
      exact if_congr ⟨fun same => (Option.some.inj same).symm,
        fun same => congrArg some same.symm⟩ rfl rfl
    · rw [if_neg first, if_neg first, if_neg nofun]
  have files : ∀ f, ((boot fs).ftable f).uses s = 0 :=
    fun f => if_neg fun used => absurd used.1 (lt_irrefl _)
  unfold users
  rw [sum_congr rfl fun p _ => procs p, sum_eq_zero fun f _ => files f, sum_ite_eq' univ initproc]
  simp

theorem fds_boot (fs : Fs) (f : Fslot) : (boot fs).fds f = 0 :=
  sum_eq_zero fun _ _ => sum_eq_zero fun _ _ => if_neg nofun

theorem icache_boot (fs : Fs) :
    (boot fs).kernel.icache rootSlot = ⟨ROOTDEV, ROOTINO, 1, false, false, .zero⟩ :=
  Kernel.icache_setInode_self _ _ _

theorem ref_boot (fs : Fs) (s : Slot) :
    ((boot fs).kernel.icache s).ref = if s = rootSlot then 1 else 0 := by
  by_cases here : s = rootSlot
  · rw [here, icache_boot, if_pos rfl]
  · rw [if_neg here]
    show (((Kernel.boot fs).setInode rootSlot _).icache s).ref = 0
    rw [Kernel.icache_setInode_of_ne here]
    rfl

theorem eq_rootSlot {s : Slot} (used : 0 < ((boot fs).kernel.icache s).ref) : s = rootSlot := by
  by_contra other
  rw [ref_boot, if_neg other] at used
  exact absurd used (lt_irrefl _)

theorem inum_rootSlot (fs : Fs) : (boot fs).inum rootSlot = ROOTINO := by
  unfold inum
  rw [icache_boot]

theorem coherent_boot (wellFormed : fs.view.WellFormed) : (boot fs).kernel.Coherent where
  wellFormed := wellFormed
  nonneg s := by
    rw [ref_boot]
    split <;> decide
  dev s used := by rw [eq_rootSlot used, icache_boot]
  unique s s' used used' _ := (eq_rootSlot used).trans (eq_rootSlot used').symm
  synced s used valid := by
    rw [eq_rootSlot used, icache_boot] at valid
    cases valid
  locked s used busy := by
    rw [eq_rootSlot used, icache_boot] at busy
    cases busy

/-- **After boot every reference is accounted for**, if the root directory is allocated and every
inode has a link. -/
theorem sound_start (wellFormed : fs.view.WellFormed) (apart : fs.Apart)
    (root : fs.view.Live ROOTINO) (linked : ∀ i, fs.view.tree.Live i → fs.view.tree.nlink i ≠ 0) :
    (boot fs).Sound fs.readsb.ninodes.toNat where
  within :=
    { coherent := coherent_boot wellFormed
      apart := apart
      low := fun b member => by cases member
      ninodes := rfl
      counts := fun s => by
        rw [ref_boot]
        show _ = (((boot fs).users s : Nat) : Int) + _
        rw [users_boot]
        split <;> rfl
      nums := fun _ _ => rfl
      held := fun s user => by
        have here : s = rootSlot := by
          by_contra other
          have none' : (boot fs).users s = 0 := by rw [users_boot, if_neg other]
          exact absurd none' (Nat.pos_iff_ne_zero.mp user)
        show fs.view.Live ((boot fs).inum s)
        rw [here, inum_rootSlot]
        exact root
      points := fun r member => by cases member
      anchored := fun i live unlinked => by
        have live' : fs.view.Live i := live
        refine absurd ?_ (linked i live)
        rw [View.nlink_tree live']
        exact unlinked }
  files f := by
    rw [fds_boot]
    rfl
  closed _ _ := rfl

/-- The system starts with every reference accounted for. -/
theorem sound_boot (image : fs.Image) : (boot fs).Sound fs.readsb.ninodes.toNat :=
  sound_start image.wellFormed image.apart image.tree.sound.root.live image.linked

theorem hold_boot {h : Holder} {i : Nat} (holds : (boot fs).names.hold h = some i) :
    i = ROOTINO := by
  cases h with
  | cwd p =>
    obtain ⟨s, current, rfl⟩ := Option.map_eq_some_iff.mp holds
    have here : (if p = initproc then some rootSlot else none) = some s := current
    split at here
    · cases here
      exact inum_rootSlot fs
    · cases here
  | fd p fd => cases holds

theorem tidy_boot (image : fs.Image) : (boot fs).names.Tidy fs.readsb.ninodes.toNat where
  tree := image.tree
  held i held := by
    obtain ⟨_, holds⟩ := held
    rw [hold_boot holds]
    exact image.tree.sound.root.live
  kept i live unlinked := absurd unlinked (image.linked i live)

end Boot

end System

/-! ### The image without files -/

/-- The entries of a root directory that `mkfs` wrote alone and rounded up to a block. -/
def blankRoot : List Dirent := Dirent.dots ROOTINO ROOTINO ++ List.replicate 30 Dirent.free

theorem Tree.tidy_blank {t : Tree} {n : Nat} (size : ROOTINO < n ∧ n ≤ 2 ^ 16)
    (type : ∀ i, t.type i = if i = ROOTINO then T_DIR else 0)
    (nlink : ∀ i, t.nlink i = if i = ROOTINO then 1 else 0)
    (ents : ∀ i, t.ents i = if i = ROOTINO then blankRoot else []) : t.Tidy n := by
  have only : ∀ i, t.Live i → i = ROOTINO := by
    intro i live
    by_contra other
    exact live ((type i).trans (if_neg other))
  have root : t.Dir ROOTINO := (type ROOTINO).trans (if_pos rfl)
  have rootEnts : t.ents ROOTINO = blankRoot := (ents ROOTINO).trans (if_pos rfl)
  have unused : ∀ de ∈ blankRoot, de.proper = false := by decide
  have edge : ∀ d i, t.edge d i = 0 := by
    intro d i
    refine List.countP_eq_zero.mpr fun de member named => ?_
    have proper := (Dirent.names_iff.mp named).1
    rw [ents] at member
    split at member
    · rw [unused de member] at proper
      cases proper
    · cases member
  have into' : ∀ i, into (range n) t.edge i = 0 := fun i => sum_eq_zero fun d _ => edge d i
  have outOf' : ∀ i, outOf (range n) t.Dir t.edge i = 0 := fun i => sum_eq_zero fun d _ => edge i d
  have dotted : Dotted n ROOTINO blankRoot :=
    { dot := ⟨Dirent.link [46] ROOTINO, by decide⟩
      dotdot := by
        refine ⟨Dirent.link [46, 46] ROOTINO, by decide, ⟨by decide, ?_⟩, by decide⟩
        exact size.1
      others := by
        have behind : ∀ de ∈ blankRoot.drop 2, de.inum = 0 := by decide
        intro p de from' at' used
        refine absurd (behind de ?_) used
        exact List.mem_drop_iff_getElem.mpr (by
          obtain ⟨inside, rfl⟩ := List.getElem?_eq_some_iff.mp at'
          exact ⟨p - 2, by omega, by congr 1; omega⟩) }
  refine ⟨⟨⟨size.2, ?_, ?_, ?_, root, ?_⟩, ?_, ?_, ?_, ?_, ?_, fun _ _ => rfl⟩, ?_, ?_⟩
  · intro i live
    rw [only i live]
    exact ⟨by decide, size.1⟩
  · intro i plain
    rw [ents, if_neg]
    rintro rfl
    exact plain root
  · intro i dead
    rw [nlink, if_neg]
    rintro rfl
    exact dead root.live
  · intro d dir
    rw [only d dir.live, rootEnts]
    exact dotted
  · intro d i link
    exact absurd (edge d i) link.ne'
  · intro d i link
    exact absurd (edge d i) link.ne'
  · unfold Tree.parent
    rw [rootEnts]
    decide
  · intro i _
    rw [into']
    exact Nat.zero_le 1
  · intro i live
    unfold Tree.owed
    rw [into', outOf', nlink, only i live]
    rfl
  · intro d dir unlinked
    rw [nlink, if_pos (only d dir.live)] at unlinked
    exact absurd unlinked (by decide)
  · intro d dir _
    rw [only d dir.live]
    exact .refl

namespace Mkfs

variable {img : Img}

set_option maxRecDepth 100000 in
theorem blank_layout : ∃ img, mkfs [] = .ok img ∧
    ((img.boot.view.din ROOTINO).size.toNat = BSIZE ∧ img.boot.view.firstEnts ROOTINO = blankRoot) ∧
    ∀ b ∈ img.boot.view.free.take MAXOPBLOCKS, b < img.boot.view.sb.logStart := by
  obtain ⟨img, made, facts'⟩ := exists_of_endsIn (x := mkfs []) (P := fun img =>
    decide
      (((img.boot.view.din ROOTINO).size.toNat = BSIZE ∧
      img.boot.view.firstEnts ROOTINO = blankRoot) ∧ ∀ b ∈ img.boot.view.free.take MAXOPBLOCKS,
      b < img.boot.view.sb.logStart)) (by decide +kernel)
  exact ⟨img, made, of_decide_eq_true facts'⟩

section Image

variable (made : mkfs [] = .ok img)

include made

theorem dirents_blank : img.boot.view.dirents ROOTINO = blankRoot := by
  obtain ⟨img', made', ⟨one, first⟩, _⟩ := blank_layout
  cases made.symm.trans made'
  rw [View.dirents_of_le one.le, first]

theorem only_blank {i : Nat} (live : img.boot.view.Live i) : i = ROOTINO := by
  obtain ⟨built, holds, finished⟩ := (mkfs_meets (by decide)).of_ok made
  have range := (holds.wf.live i).mp ((finished.live i).mp live)
  have next' : built.freeinode = 2 := holds.freeinode
  rw [next'] at range
  exact le_antisymm (Nat.le_of_lt_succ range.2) range.1

theorem root_blank : (img.boot.view.din ROOTINO).type = T_DIR ∧
    (img.boot.view.din ROOTINO).nlink = 1 := by
  obtain ⟨built, holds, finished⟩ := (mkfs_meets (by decide)).of_ok made
  rw [finished.view, View.din_setDin_self]
  exact holds.rootType

theorem type_blank (i : Nat) : img.boot.view.tree.type i = if i = ROOTINO then T_DIR else 0 := by
  by_cases root : i = ROOTINO
  · rw [if_pos root, root]
    exact (root_blank made).1
  · rw [if_neg root]
    by_contra live
    exact root (only_blank made live)

theorem nlink_blank (i : Nat) : img.boot.view.tree.nlink i = if i = ROOTINO then 1 else 0 := by
  show (if img.boot.view.tree.type i = 0 then 0 else (img.boot.view.din i).nlink) = _
  rw [type_blank made]
  by_cases root : i = ROOTINO
  · rw [if_pos root, if_neg (by decide), if_pos root, root, (root_blank made).2]
  · rw [if_neg root, if_pos rfl, if_neg root]

theorem ents_blank (i : Nat) :
    img.boot.view.tree.ents i = if i = ROOTINO then blankRoot else [] := by
  show (if img.boot.view.tree.type i = T_DIR then img.boot.view.dirents i else []) = _
  rw [type_blank made]
  by_cases root : i = ROOTINO
  · rw [if_pos root, if_pos rfl, if_pos root, root, dirents_blank made]
  · rw [if_neg root, if_neg (by decide), if_neg root]

theorem image_blank : img.boot.Image := by
  obtain ⟨built, holds, finished⟩ := (mkfs_meets (by decide)).of_ok made
  have sb := finished.readsb holds
  have used : built.freeblock = 30 := holds.freeblock
  have wellFormed := finished.wellFormed holds (by decide)
  refine ⟨wellFormed, ⟨⟨?_, List.nodup_nil, fun _ member => nomatch member⟩, ?_, ?_⟩, ?_, ?_⟩
  · rw [sb]
    rfl
  · show img.boot.readsb.dataStart ≤ img.boot.readsb.logStart
    rw [sb]
    decide
  · intro place b own
    have inside : b < img.boot.readsb.size.toNat := (wellFormed.owned.range own).2
    rw [sb] at inside
    have low := (finished.bit inside).mp (wellFormed.owned.owns.used_of_own own)
    rw [used] at low
    show b < img.boot.readsb.logStart
    rw [sb]
    exact low.trans (by decide)
  · refine Tree.tidy_blank ?_ (type_blank made) (nlink_blank made) (ents_blank made)
    rw [sb]
    decide
  · intro i live unlinked
    rw [nlink_blank made, if_pos (only_blank made live)] at unlinked
    exact absurd unlinked (by decide)

end Image

end Mkfs

/-! ### Runs -/

section Runs

variable {fs : Fs} {ops : List (Fin NPROC × NameOp)}

/-- **Link counts.** In a run from a well-formed image every count is exact, and every inode that no
entry refers to is held, exactly as long as each entry that a call adds goes to a directory with a
link and no count is raised past the greatest `short`. -/
theorem linkCounts_iff (image : fs.Image)
    (room : EachStep System.step (fun y e => y.HasRoom e.2) (System.boot fs) ops) :
    Always System.step (fun y => y.names.Exact fs.readsb.ninodes.toNat) (System.boot fs) ops ↔
      EachStep System.step (fun y e => y.names.Linkable e) (System.boot fs) ops := by
  have exact' : ∀ y :
    System, y.Sound fs.readsb.ninodes.toNat ∧ y.names.Tidy fs.readsb.ninodes.toNat →
      y.names.Exact fs.readsb.ninodes.toNat := fun y inv => inv.2.exact
  refine always_iff_eachStep_of exact' ?_ ⟨System.sound_boot image, System.tidy_boot image⟩ room
  intro y e y' ⟨sound, tidy⟩ room taken
  obtain ⟨sound', step, _, _⟩ := (sound.step tidy.tree.sound.toShape.ranged room).of_ok taken
  obtain ⟨keeps, breaks⟩ := tidy.step step
  exact ⟨fun linkable => ⟨sound', keeps linkable⟩, breaks⟩

section Blank

open Mkfs

variable {img : Img}

/-- The call `mkdir("d")` of the first process. -/
def mkdirCall : Fin NPROC × NameOp := (initproc, .mkdir [100])

theorem Mkfs.adds_blank (made : mkfs [] = .ok img) {cwd d : Nat} {r : Option Nat}
    (adds : (System.boot img.boot).names.tree.Adds cwd d r mkdirCall.2) :
    r = some d ∧ (System.boot img.boot).names.tree.nlink d = 1 := by
  obtain ⟨target, _, found, _⟩ := adds
  have root : d = ROOTINO := only_blank made (Tree.resolveParent_dir found).live
  exact ⟨target, (nlink_blank made d).trans (if_pos root)⟩

theorem exists_blank : ∃ img, mkfs [] = .ok img ∧
    EachStep System.step (fun y e => y.HasRoom e.2) (System.boot img.boot) [mkdirCall] := by
  obtain ⟨img, made, _, low⟩ := blank_layout
  have room : (System.boot img.boot).HasRoom mkdirCall.2 :=
    fun b member => low b ((List.take_sublist_take_left (by decide)).subset member)
  exact ⟨img, made, eachStep_cons.mpr fun t _ => ⟨room, eachStep_nil⟩⟩

/-- One `mkdir` in the root directory keeps the counts exact. -/
theorem linkCounts_mkdir : ∃ img, mkfs [] = .ok img ∧
    Always System.step (fun y => y.names.Exact img.boot.readsb.ninodes.toNat) (System.boot img.boot)
      [mkdirCall] := by
  obtain ⟨img, made, room⟩ := exists_blank
  refine ⟨img, made, (linkCounts_iff (image_blank made) room).mpr ?_⟩
  refine eachStep_cons.mpr fun t _ => ⟨fun cwd _ d r adds => ?_, eachStep_nil⟩
  obtain ⟨rfl, count⟩ := adds_blank made adds
  refine ⟨fun zero => absurd (count.symm.trans zero) (by decide), fun j same => ?_⟩
  cases same
  rw [count]
  decide

/-- `mkdir("d"); chdir("d"); unlink("/d"); open("x", O_CREATE)`. -/
def orphanCalls : List (Fin NPROC × NameOp) :=
  [mkdirCall, (initproc, .chdir [100]), (initproc, .unlink [47, 100]),
    (initproc, .open [120] O_CREATE)]

set_option maxRecDepth 100000 in
/-- **A file in a removed directory** has a link that no entry below the root accounts for. -/
theorem linkCounts_orphan : ∃ img y, mkfs [] = .ok img ∧ img.boot.Image ∧
    orphanCalls.foldlM System.step (System.boot img.boot) = .ok y ∧
    y.names.tree.Live 3 ∧ y.names.tree.nlink 3 = 1 ∧
    y.names.tree.refs img.boot.readsb.ninodes.toNat 3 = 0 := by
  obtain ⟨img, made, ends⟩ := exists_of_endsIn (x := mkfs []) (P := fun img =>
    endsIn (orphanCalls.foldlM System.step (System.boot img.boot)) fun y =>
    decide (y.names.tree.Live 3 ∧ y.names.tree.nlink 3 = 1 ∧
      (y.kernel.fs.view.din ROOTINO).size.toNat ≤ BSIZE ∧
      ∀ de ∈ y.kernel.fs.view.firstEnts ROOTINO, de.inum = 0 ∨ de.inum.toNat = ROOTINO))
      (by decide +kernel)
  obtain ⟨y, run, facts'⟩ := exists_of_endsIn ends
  obtain ⟨live, nlink, small, first⟩ := of_decide_eq_true facts'
  have ents : ∀ de ∈ y.names.tree.ents ROOTINO, de.inum = 0 ∨ de.inum.toNat = ROOTINO := by
    intro de member
    refine first de ?_
    rw [← View.dirents_of_le small]
    exact View.mem_ents_tree member
  refine ⟨img, y, made, image_blank made, run, live, nlink, ?_⟩
  -- Every entry of the root directory leads to itself, so lookups stay there.
  have reach : ∀ d, y.names.tree.Reach d → d = ROOTINO := by
    intro d reach
    induction reach with
    | refl => rfl
    | tail _ leads ih =>
      obtain ⟨de, member, used, rfl⟩ := leads
      rw [ih] at member
      exact (ents de member).resolve_left used
  classical
  refine sum_eq_zero fun d member => List.countP_eq_zero.mpr fun de entry refers => ?_
  rw [reach d (mem_filter.mp member).2] at entry
  unfold Dirent.refers at refers
  simp only [Bool.and_eq_true, bne_iff_ne, beq_iff_eq] at refers
  obtain ⟨⟨used, three⟩, _⟩ := refers
  have root := (ents de entry).resolve_left used
  rw [three] at root
  exact absurd root (by decide)

end Blank

namespace System

/-- No lookup by any process finds a free inode. -/
def Lookable (y : System) : Prop := ∀ p cwd, (y.proc p).cwd = some cwd → ∀ path parent,
  y.kernel.namex cwd path parent ≠ .error (.panic .ilockNoType)

theorem Sound.lookable {y : System} {n : Nat} (sound : y.Sound n) (whole : y.names.Whole n)
    (safe : y.names.Safe) : y.Lookable := by
  obtain ⟨_, tree⟩ := whole.tree
  intro p cwd current path parent failed
  have start : y.names.Access (if path.head? = some 47 then ROOTINO else y.inum cwd) := by
    split
    · exact .root
    · exact .currentDir (Option.map_eq_some_iff.mpr ⟨cwd, current, rfl⟩)
  obtain ⟨d, reaches, free⟩ :=
    (sound.within.namex tree.toShape.ranged (users_cwd current) path parent).of_error failed rfl
  have access : y.names.Access d := by
    clear free
    induction reaches with
    | refl => exact start
    | tail _ leads ih => exact ih.tail leads
  exact free (safe.live whole (.inl access))

theorem whole_boot (image : fs.Image) :
    (boot fs).names.Whole fs.readsb.ninodes.toNat ∧ (boot fs).names.Safe := by
  have tidy := tidy_boot image
  refine ⟨⟨⟨_, tidy.tree.sound⟩, tidy.held, tidy.kept⟩, ?_⟩
  have reach : ∀ d, (boot fs).names.Access d → (boot fs).names.tree.Reach d := by
    intro d access
    refine access.invariant .refl (fun p i holds => ?_) fun d i _ reach leads => reach.tail leads
    rw [hold_boot holds]
    exact .refl
  intro d seen i leads
  have access : (boot fs).names.Access d := by
    rcases seen with access | ⟨_, holds⟩
    · exact access
    · rw [hold_boot holds]
      exact .root
  exact tidy.tree.sound.reached_live (tidy.tree.sound.reach_iff.mp ((reach d access).tail leads))

end System

/-- **Directory entries.** In a run from a well-formed image in which no count wraps, the entries of
every directory that can be reached or is held name allocated inodes, and no lookup finds a free
one, exactly as long as each call leaves the parents of those directories linked or held. -/
theorem entries_allocated_iff (image : fs.Image)
    (room : EachStep System.step (fun y e => y.HasRoom e.2) (System.boot fs) ops)
    (unwrapped : EachStep System.step (fun y e => y.names.Unwrapped e) (System.boot fs) ops) :
    Always System.step (fun y => y.names.Safe ∧ y.Lookable) (System.boot fs) ops ↔
      EachStep System.step (fun y e => y.names.Considerate fs.readsb.ninodes.toNat e)
        (System.boot fs) ops := by
  have safe : ∀ y : System, y.Sound fs.readsb.ninodes.toNat ∧
      y.names.Whole fs.readsb.ninodes.toNat ∧ y.names.Safe → y.names.Safe ∧ y.Lookable :=
    fun y ⟨sound, whole, safe⟩ => ⟨safe, sound.lookable whole safe⟩
  refine always_iff_eachStep_of safe ?_ ⟨System.sound_boot image, System.whole_boot image⟩
    (room.and unwrapped)
  intro y e y' ⟨sound, whole, safe⟩ ⟨room, unwrapped⟩ taken
  obtain ⟨_, tree⟩ := whole.tree
  obtain ⟨sound', step, _, _⟩ := (sound.step tree.toShape.ranged room).of_ok taken
  obtain ⟨whole', exact'⟩ := whole.step_iff safe unwrapped step
  exact ⟨fun considerate => ⟨sound', whole', exact'.mpr considerate⟩,
    fun careless both => careless (exact'.mp both.1)⟩

end Runs

section Blank

open Mkfs

/-- One `mkdir` in the root directory leaves every entry that can be reached allocated. -/
theorem entries_allocated_mkdir : ∃ img, mkfs [] = .ok img ∧
    Always System.step (fun y => y.names.Safe ∧ y.Lookable) (System.boot img.boot) [mkdirCall] := by
  obtain ⟨img, made, room⟩ := exists_blank
  have below : ∀ cwd d j, (System.boot img.boot).names.tree.Adds cwd d (some j) mkdirCall.2 →
      ((System.boot img.boot).names.tree.nlink j).toInt < 32767 := by
    intro cwd d j adds
    obtain ⟨same, count⟩ := adds_blank made adds
    cases same
    rw [count]
    decide
  have unwrapped : EachStep System.step (fun y e => y.names.Unwrapped e) (System.boot img.boot)
    [mkdirCall] :=
    eachStep_cons.mpr fun t _ => ⟨fun cwd _ => below cwd, eachStep_nil⟩
  refine ⟨img, made, (entries_allocated_iff (image_blank made) room unwrapped).mpr ?_⟩
  refine eachStep_cons.mpr fun t _ => ⟨fun cwd current c edits => ?_, eachStep_nil⟩
  obtain ⟨whole, safe⟩ := System.whole_boot (image_blank made)
  exact edits.parented whole safe (.currentDir current) (below cwd) (fun removes => removes)

/-- `mkdir("d"); mkdir("d/e"); chdir("d/e"); unlink("/d/e"); unlink("/d")`. -/
def danglingCalls : List (Fin NPROC × NameOp) :=
  [mkdirCall, (initproc, .mkdir [100, 47, 101]), (initproc, .chdir [100, 47, 101]),
    (initproc, .unlink [47, 100, 47, 101]), (initproc, .unlink [47, 100])]

set_option maxRecDepth 100000 in
/-- **The parent of a removed current directory** can be removed and freed; its `..` is then an
entry for a free inode, and the lookup of `../x` halts the kernel. -/
theorem entries_allocated_dangling : ∃ img y, mkfs [] = .ok img ∧ img.boot.Image ∧
    danglingCalls.foldlM System.step (System.boot img.boot) = .ok y ∧ ¬ y.names.Safe ∧
    ∃ cwd, (y.proc initproc).cwd = some cwd ∧
      y.kernel.namex cwd [46, 46, 47, 120] false = .error (.panic .ilockNoType) := by
  obtain ⟨img, made, ends⟩ := exists_of_endsIn (x := mkfs []) (P := fun img =>
    endsIn (danglingCalls.foldlM System.step (System.boot img.boot)) fun y =>
    decide ((∃ cwd, (y.proc initproc).cwd = some cwd ∧ y.inum cwd = 3 ∧
      failsWith (y.kernel.namex cwd [46, 46, 47, 120] false) (.panic .ilockNoType) = true) ∧
      (y.names.tree.Dir 3 ∧ (y.kernel.fs.view.din 3).size.toNat ≤ BSIZE ∧
        ∃ de ∈ y.kernel.fs.view.firstEnts 3, de.inum ≠ 0 ∧ de.inum.toNat = 2) ∧
        ¬ y.names.tree.Live 2))
    (by decide +kernel)
  obtain ⟨y, run, facts'⟩ := exists_of_endsIn ends
  obtain ⟨⟨cwd, current, number, halts⟩, ⟨dir, small, de, member, leads⟩, free⟩ :=
    of_decide_eq_true facts'
  have entry : y.names.tree.Leads 3 2 := by
    refine ⟨de, ?_, leads⟩
    rw [show y.names.tree.ents 3 = _ from View.ents_tree dir, View.dirents_of_le small]
    exact member
  refine ⟨img, y, made, image_blank made, run, fun safe => ?_, cwd, current,
    eq_error_of_failsWith halts⟩
  have held : y.names.Held 3 := ⟨.cwd initproc, Option.map_eq_some_iff.mpr ⟨cwd, current, number⟩⟩
  exact free (safe 3 (.inr held) 2 entry)

end Blank

end Xv6
