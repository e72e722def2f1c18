/-
**When an image of `mkfs` is well formed.**

`Img.Sound` says what a well-formed image is. `mkfs` does not check its input for it: an image is
sound exactly when there were few enough files for the inode table, when the blocks end before the
log, and when the root directory did not fill its last block, since its size is rounded up one block
too far then.
-/

import Xv6.Mkfs.Main

namespace Xv6.Mkfs

open Lib

/-- **A well-formed image.** -/
structure Img.Sound (img : Img) : Prop where
  /-- Every inode number used is in the inode table. -/
  inodes : ∀ i, 1 ≤ i → i < img.freeinode → i < ninodes
  /-- Every block of an inode is in the data area before the log. -/
  blocks : ∀ place b, img.boot.view.own place = some b → metablocks ≤ b ∧ b < size - nlog
  /-- No block belongs to two inodes. -/
  distinct : ∀ place other b, img.boot.view.own place = some b → img.boot.view.own other = some b →
    place = other
  /-- The bitmap marks exactly the blocks in use. -/
  bitmap : ∀ b, b < size →
    (img.boot.view.bit b = true ↔ b < metablocks ∨ ∃ place, img.boot.view.own place = some b)
  /-- Every inode has an address for every block up to its size. -/
  addressed : ∀ i, img.boot.view.Live i →
    ∀ k, k < blocksOf (img.boot.view.din i).size.toNat → img.boot.view.slot i k ≠ 0

/-! ### Counting -/

/-- `n` is the next inode number. -/
def Img.Counts (n : Nat) (img : Img) : Prop := img.freeinode = n

section Count

variable {img : Img} {n : Nat}

theorem rsect_any (img : Img) (sec : Nat) :
    Meets (img.rsect sec) (fun _ => True) fun _ => True :=
  .intro (fun _ _ => trivial) fun _ _ => trivial

theorem Img.Counts.take (counts : img.Counts n) : img.take.Counts n := counts

theorem Img.Counts.winode (counts : img.Counts n) (i : Nat) (d : Dinode) :
    Meets (img.winode i d) (Img.Counts n) fun _ => True := by
  unfold Img.winode
  exact (rsect_any _ _).bind fun _ _ => counts

theorem Img.Counts.appendBlock (counts : img.Counts n) (din : Dinode) (p : List UInt8) (off : Nat) :
    Meets (img.appendBlock din p off) (fun r => r.2.Counts n) fun _ => True := by
  have addr : ∀ k, (img.appendAddr din k).2.Counts n := by
    intro k
    unfold Img.appendAddr
    split
    · exact counts.take
    · exact counts
  have map : Meets (img.appendMap din (off / 512)) (fun r => r.2.2.Counts n) fun _ => True := by
    unfold Img.appendMap
    split
    · exact addr _
    · have entry : Meets ((img.appendAddr din NDIRECT).2.appendEntry (img.appendAddr din NDIRECT).1
          (off / 512 - NDIRECT)) (fun r => r.2.Counts n) fun _ => True := by
        unfold Img.appendEntry
        refine (rsect_any _ _).bind fun _ _ => ?_
        split
        · exact (addr NDIRECT).take
        · exact addr NDIRECT
      exact entry.bind fun _ same => same
  unfold Img.appendBlock
  split
  · exact map.bind fun _ same => (rsect_any _ _).bind fun _ _ => same
  · trivial

theorem Img.Counts.appendLoop (counts : img.Counts n) (din : Dinode) (p : List UInt8) (off : Nat) :
    Meets (img.appendLoop din p off) (fun r => r.2.Counts n) fun _ => True := by
  induction len : p.length using Nat.strong_induction_on generalizing img din p off with
  | _ m ih =>
    rw [Img.appendLoop]
    by_cases done : p = []
    · rw [if_pos done]
      exact counts
    · rw [if_neg done]
      refine (counts.appendBlock din _ off).bind fun r same => ?_
      refine ih _ ?_ same _ _ _ rfl
      have := List.length_pos_iff.mpr done
      rw [List.length_drop]
      omega

theorem Img.Counts.iappend (counts : img.Counts n) (i : Nat) (p : List UInt8) :
    Meets (img.iappend i p) (Img.Counts n) fun _ => True := by
  have load : Meets (img.rinode i) (fun _ => True) fun _ => True :=
    (rsect_any _ _).bind fun _ _ => trivial
  unfold Img.iappend
  exact load.bind fun _ _ => (counts.appendLoop _ _ _).bind fun _ same => same.winode _ _

theorem Img.Counts.addFile (counts : img.Counts n) (rootino : Nat) (file : InputFile) :
    Meets (addFile rootino img file) (Img.Counts (n + 1)) fun _ => True := by
  unfold Mkfs.addFile
  split
  · trivial
  · cases file.chunks with
    | none => trivial
    | some chunks =>
      have next : Img.Counts (n + 1) { img with freeinode := img.freeinode + 1 } :=
        congrArg (· + 1) counts
      have start : Meets (img.ialloc T_FILE) (fun r => r.2.Counts (n + 1)) fun _ => True :=
        (next.winode _ _).bind fun _ same => same
      refine start.bind fun r same => (same.iappend _ _).bind fun img' same' => ?_
      exact Meets.foldlM (fun _ (m : Img) => m.Counts (n + 1)) same' fun _ _ _ _ _ here =>
        here.iappend _ _

theorem mkfs_count {files : List InputFile} {result : Img} (made : mkfs files = .ok result) :
    result.freeinode = files.length + 2 := by
  obtain ⟨start, root, built⟩ := withRoot_eq
  have run : Meets (mkfs files) (Img.Counts (files.length + 2)) fun _ => True := by
    unfold mkfs
    rw [root]
    simp only [Lib.ok_bind]
    have begin' : start.Counts (([] : List InputFile).length + 2) := built.freeinode
    refine (Meets.foldlM (fun done (m : Img) => m.Counts (done.length + 2)) begin' ?_).bind ?_
    · intro done file _ m _ here
      rw [List.length_append, List.length_singleton]
      exact here.addFile ROOTINO file
    · intro m here
      have load : Meets (m.rinode ROOTINO) (fun _ => True) fun _ => True :=
        (rsect_any _ _).bind fun _ _ => trivial
      refine load.bind fun _ _ => (here.winode _ _).bind fun m' same => ?_
      unfold Img.balloc
      split
      · exact same
      · trivial
  exact run.of_ok made

end Count

/-! ### Soundness -/

section Sound

variable {files : List InputFile} {built img : Img}

theorem Finished.addrs (finished : Finished built img) (j k : Nat) :
    img.boot.view.slot j k = built.marked.slot j k := by
  rw [finished.view]
  exact View.slot_setDin (addrs_roundedRoot _) j k

theorem Finished.live (finished : Finished built img) (j : Nat) :
    img.boot.view.Live j ↔ built.marked.Live j := by
  rw [finished.view]
  exact View.live_setDin (by rw [type_roundedRoot]) j

theorem Finished.own (finished : Finished built img) (place : Nat × Nat) :
    img.boot.view.own place = built.marked.own place := by
  unfold View.own
  simp only [finished.addrs, finished.live]

theorem Finished.bit (finished : Finished built img) {b : Nat} (inside : b < size) :
    img.boot.view.bit b = true ↔ b < built.freeblock := by
  have same : img.boot.view.bit b = decide (b < built.freeblock ∨ size ≤ b) := by
    rw [finished.view]
    rfl
  rw [same, decide_eq_true_eq]
  omega

theorem Built.rootSize (holds : Built files built) :
    (built.marked.din ROOTINO).size.toNat = DIRENTSIZE * (files.length + 2) := by
  rw [← View.length_contents, holds.root, length_rootEntries]

theorem Finished.rootSize (holds : Built files built) (finished : Finished built img) :
    (img.boot.view.din ROOTINO).size.toNat = rounded (DIRENTSIZE * (files.length + 2)) := by
  have few : files.length + 2 ≤ 200 := holds.freeinode ▸ holds.wf.inodes
  rw [finished.view, View.din_setDin_self]
  show (UInt32.ofNat _).toNat = _
  rw [UInt32.toNat_ofNat', holds.rootSize, Nat.mod_eq_of_lt]
  unfold rounded
  rw [DIRENTSIZE_eq, BSIZE_eq]
  omega

theorem Finished.root_addressed (holds : Built files built) (finished : Finished built img) :
    (∀ k, k < blocksOf (img.boot.view.din ROOTINO).size.toNat → img.boot.view.slot ROOTINO k ≠ 0) ↔
      (files.length + 2) % (BSIZE / DIRENTSIZE) ≠ 0 := by
  have live : built.marked.Live ROOTINO := by
    unfold View.Live
    rw [holds.rootType.1]
    decide
  have shaped := holds.wf.wellFormed.shaped ROOTINO live
  have few : files.length + 2 ≤ 200 := holds.freeinode ▸ holds.wf.inodes
  rw [holds.rootSize] at shaped
  rw [finished.rootSize holds]
  have bound : ∀ k, k ≤ MAXFILE → (img.boot.view.slot ROOTINO k ≠ 0 ↔
      k < blocksOf (DIRENTSIZE * (files.length + 2)) ∨
        k = MAXFILE ∧ NDIRECT < blocksOf (DIRENTSIZE * (files.length + 2))) := by
    intro k inside
    rw [finished.addrs]
    exact shaped.slots k inside
  unfold blocksOf rounded at *
  rw [DIRENTSIZE_eq, BSIZE_eq, MAXFILE_eq, NDIRECT_eq] at *
  constructor
  · intro all full
    have := (bound ((files.length + 2) / 32) (by omega)).mp (all _ (by omega))
    omega
  · intro unfilled k below
    exact (bound k (by omega)).mpr (.inl (by omega))

theorem Finished.sound (holds : Built files built) (finished : Finished built img)
    (fits : usedBlocks files ≤ size - nlog)
    (unfilled : (files.length + 2) % (BSIZE / DIRENTSIZE) ≠ 0) : img.Sound := by
  have owned := holds.wf.wellFormed.owned
  have sb : built.marked.sb = Mkfs.sb := holds.wf.ok.sb
  have used : built.freeblock = usedBlocks files := holds.freeblock
  have high : size - nlog = 994 := rfl
  have top : size = 1024 := rfl
  have bits : ∀ b, built.marked.bit b = true → b < size → b < built.freeblock := by
    intro b mark inside
    have : b < built.freeblock ∨ size ≤ b := of_decide_eq_true mark
    omega
  refine ⟨?_, ?_, ?_, ?_, ?_⟩
  · intro i _ below
    rw [finished.freeinode] at below
    exact below.trans_le holds.wf.inodes
  · intro place b owns
    rw [finished.own] at owns
    have range := owned.range owns
    rw [sb] at range
    have inside : b < size := range.2
    have := bits b (owned.owns.used_of_own owns) inside
    exact ⟨range.1, by omega⟩
  · intro place other b one two
    rw [finished.own] at one two
    exact owned.owns.inj one two
  · intro b inside
    simp only [finished.own]
    rw [finished.bit inside]
    constructor
    · intro below
      by_cases low : b < metablocks
      · exact .inl low
      · refine .inr (owned.owns.cover ?_ (decide_eq_true (.inl below)))
        rw [sb]
        refine ⟨Nat.le_of_not_lt low, ?_⟩
        show b < size - nlog
        omega
    · rintro (low | ⟨place, owns⟩)
      · exact low.trans_le holds.wf.ok.low
      · exact bits b (owned.owns.used_of_own owns) inside
  · intro i live k below
    by_cases root : i = ROOTINO
    · subst root
      exact (finished.root_addressed holds).mpr unfilled k below
    · have alive := (finished.live i).mp live
      have shaped := holds.wf.wellFormed.shaped i alive
      have same : img.boot.view.din i = built.marked.din i := by
        rw [finished.view]
        exact View.din_setDin_of_ne root _ _
      rw [same] at below
      rw [finished.addrs]
      exact (shaped.slots k (below.le.trans shaped.bound)).mpr (.inl below)

theorem Finished.fits (holds : Built files built) (finished : Finished built img)
    (sound : img.Sound) : usedBlocks files ≤ size - nlog := by
  rw [← holds.freeblock]
  by_contra beyond
  have high := holds.wf.ok.high
  have low : size - nlog = 994 := rfl
  have low' : metablocks = 29 := rfl
  have last : built.freeblock - 1 < size := by
    have : size = 1024 := rfl
    omega
  rcases (sound.bitmap _ last).mp ((finished.bit last).mpr (by omega)) with below | ⟨place, owns⟩
  · omega
  · have := (sound.blocks _ _ owns).2
    omega

/-- **An image is well formed exactly when** the inode table holds all files, the blocks end before
the log, and the entries of the root directory do not fill its last block. -/
theorem image_sound_iff (made : mkfs files = .ok img) :
    img.Sound ↔ files.length + 1 < ninodes ∧ usedBlocks files ≤ size - nlog ∧
      (files.length + 2) % (BSIZE / DIRENTSIZE) ≠ 0 := by
  constructor
  · intro sound
    have few : files.length + 1 < ninodes :=
      sound.inodes (files.length + 1) (Nat.le_add_left _ _) (by rw [mkfs_count made]; omega)
    obtain ⟨built, holds, finished⟩ := (mkfs_meets few).of_ok made
    have live : img.boot.view.Live ROOTINO := by
      rw [finished.live]
      unfold View.Live
      rw [holds.rootType.1]
      decide
    exact ⟨few, finished.fits holds sound,
      (finished.root_addressed holds).mp (sound.addressed _ live)⟩
  · rintro ⟨few, fits, unfilled⟩
    obtain ⟨built, holds, finished⟩ := (mkfs_meets few).of_ok made
    exact finished.sound holds fits unfilled

theorem usedBlocks_empty (n : Nat) : usedBlocks (List.replicate n emptyFile) =
    metablocks + blocksFor (DIRENTSIZE * (n + 2)) := by
  have none' : blocksFor emptyFile.bytes.length = 0 := rfl
  unfold usedBlocks
  rw [List.length_replicate, List.map_replicate, none', List.sum_replicate_nat, Nat.mul_zero,
    Nat.add_zero]

theorem mkfs_empty {n : Nat} (few : n + 1 < ninodes) :
    ∃ img, mkfs (List.replicate n emptyFile) = .ok img ∧
      ∃ built, Built (List.replicate n emptyFile) built ∧ Finished built img := by
  have few' : (List.replicate n emptyFile).length + 1 < ninodes := by
    rw [List.length_replicate]
    exact few
  refine ((mkfs_meets few').mono (fun _ good => good) ?_).exists_ok
  have only : ∀ file ∈ List.replicate n emptyFile, file = emptyFile := fun file member =>
    List.eq_of_mem_replicate member
  rintro stop
    (⟨_, file, member, slash⟩ | ⟨_, file, member, closed⟩ | ⟨_, full⟩ | ⟨_, file, member, long⟩)
  · rw [only file member] at slash
    exact absurd slash (by decide)
  · rw [only file member] at closed
    cases closed
  · rw [usedBlocks_empty] at full
    have small : blocksOf (DIRENTSIZE * (n + 2)) ≤ 7 := by
      rw [blocksOf_le, DIRENTSIZE_eq, BSIZE_eq]
      unfold ninodes at few
      omega
    have : blocksFor (DIRENTSIZE * (n + 2)) ≤ 7 := by
      unfold blocksFor growth
      rw [NDIRECT_eq, if_neg (by omega)]
      omega
    have : metablocks = 29 := rfl
    have : size = 1024 := rfl
    omega
  · rw [only file member] at long
    exact absurd long (by decide)

/-- One empty file makes a sound image. -/
theorem image_sound_one : ∃ img, mkfs (List.replicate 1 emptyFile) = .ok img ∧ img.Sound := by
  obtain ⟨img, made, _⟩ := mkfs_empty (n := 1) (by decide)
  refine ⟨img, made, (image_sound_iff made).mpr ⟨by decide, ?_, by decide⟩⟩
  rw [usedBlocks_empty]
  decide

/-- Thirty empty files fill the first block of the root directory, whose size then says two
blocks. -/
theorem thirty_files_unsound :
    ∃ img, mkfs (List.replicate 30 emptyFile) = .ok img ∧ ¬ img.Sound := by
  obtain ⟨img, made, built, holds, finished⟩ := mkfs_empty (n := 30) (by decide)
  refine ⟨img, made, fun sound => ?_⟩
  have live : img.boot.view.Live ROOTINO := by
    rw [finished.live]
    unfold View.Live
    rw [holds.rootType.1]
    decide
  exact absurd ((finished.root_addressed holds).mp (sound.addressed _ live)) (by decide)

end Sound

end Xv6.Mkfs
