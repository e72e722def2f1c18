/-
**Reads, cached inodes and directories in every run.**

A run is a sequence of completed calls. As long as the blocks that its calls take lie before the
log, in every state that it passes through

* no file has a hole, so reading allocates nothing and changes nothing;
* an inode in use is in the cache as it is on the disk;
* no file that is open for writing is a directory, and a call that neither adds nor clears an entry
changes no directory.
-/

import Xv6.Kernel.Ownership
import Xv6.Syscall.Data
import Xv6.Syscall.Runs

namespace Xv6

open Lib

/-- **No holes**: every block of an allocated inode has an address. -/
def View.Solid (v : View) : Prop :=
  ∀ i, v.Live i → ∀ b < blocksOf (v.din i).size.toNat, v.slot i b ≠ 0

theorem View.WellFormed.solid {v : View} (wellFormed : v.WellFormed) : v.Solid := by
  intro i live b inside
  have shaped := wellFormed.shaped i live
  exact (shaped.slots b (inside.le.trans shaped.bound)).mpr (.inl inside)

namespace System

variable {y : System} {n : Nat} {fs : Fs} {es : List (Fin NPROC × FsCall)}

theorem proper_boot (sound : (boot fs).Sound n) (ranged : fs.view.tree.Ranged n) :
    (boot fs).Proper n :=
  ⟨sound, ranged, fun _ inode => by cases inode⟩

theorem Proper.run (proper : y.Proper n) (space : EachStep System.serve HasSpace y es) :
    Always System.serve (fun y => y.Proper n) y es :=
  space.always (fun _ proper => proper)
    (fun _ _ _ proper taken space => ((proper.serve space).of_ok taken).1) proper

/-! ### Two disks to run on -/

section Disks

open Mkfs

/-- The call of the first process. -/
def byInit (call : FsCall) : Fin NPROC × FsCall := (initproc, call)

theorem proper_blank {img : Img} (made : mkfs [] = .ok img) :
    (boot img.boot).Proper img.boot.readsb.ninodes.toNat :=
  proper_boot (sound_boot (image_blank made)) (image_blank made).tree.sound.toShape.ranged

/-- `open("x", O_CREATE | O_RDWR)`, `write` of one byte, `open("x", O_RDONLY)` and `read` of one
byte. -/
def sampleCalls : List (Fin NPROC × FsCall) :=
  [byInit (.name (.open [120] (O_CREATE ||| O_RDWR))), byInit (.write 0 (fun _ => 1) 1 []),
    byInit (.name (.open [120] O_RDONLY)), byInit (.read 1 1 [])]

set_option maxRecDepth 100000 in
theorem exists_sample : ∃ img, mkfs [] = .ok img ∧
    EachStep System.serve HasSpace (boot img.boot) sampleCalls := by
  obtain ⟨img, made, checked⟩ := exists_of_endsIn (x := mkfs []) (P := fun img =>
    checkEach System.serve (fun y e => decide (y.HasSpace e)) (boot img.boot) sampleCalls)
      (by decide +kernel)
  exact ⟨img, made, eachStep_of_check (fun _ _ space => of_decide_eq_true space) checked⟩

theorem full_ranged : Kernel.full.fs.view.tree.Ranged 8 := by
  obtain ⟨_, _, ⟨_, size, _⟩, _, ⟨_, _, plain⟩, ents⟩ := Kernel.full_layout
  refine ⟨by decide, by decide, fun i live => ?_, ?_⟩
  · rcases Kernel.full_live.mp live with rfl | rfl <;> decide
  · rintro d i ⟨de, member, _, rfl⟩
    by_cases dir : Kernel.full.fs.view.tree.Dir d
    · rcases Kernel.full_live.mp dir.live with rfl | rfl
      · refine ents de ?_
        rw [← View.dirents_of_le (by rw [size]; decide)]
        exact View.mem_ents_tree member
      · exact absurd dir plain
    · rw [show Kernel.full.fs.view.tree.ents d = [] from if_neg dir] at member
      cases member

theorem proper_full : (boot Kernel.full.fs).Proper 8 := by
  have ninodes : Kernel.full.fs.readsb.ninodes.toNat = 8 := by
    rw [show Kernel.full.fs.readsb = _ from Kernel.full_sb]
    rfl
  obtain ⟨_, _, _, _, ⟨root, file, _⟩, _⟩ := Kernel.full_layout
  refine proper_boot (ninodes ▸ sound_start Kernel.full_wellFormed Kernel.full_apart ?_ ?_)
    full_ranged
  · exact Kernel.full_live.mpr (.inl rfl)
  · intro i live
    rw [View.nlink_tree live]
    rcases Kernel.full_live.mp live with rfl | rfl
    · exact root
    · exact file

end Disks

/-! ### Reading -/

/-- **Reads never allocate.** In every state of a run whose calls take blocks before the log, no
file has a hole, `readi` of an inode in the cache succeeds and changes nothing, and `fileread`
leaves the disk, the log and the buffers alone and never gets to the panic of `log_write`. -/
theorem reads_never_allocate (proper : y.Proper n) (space : EachStep System.serve HasSpace y es) :
    Always System.serve (fun y => y.kernel.fs.view.Solid ∧
      (∀ s off count, 0 < (y.kernel.icache s).ref → (y.kernel.icache s).valid = true →
        off < 2 ^ 32 → count < 2 ^ 32 →
        ∃ r bytes, y.kernel.readi s off count = .ok (r, bytes, y.kernel)) ∧
      ∀ p wakes f count, Meets (y.fileread p wakes f count)
        (fun (_, _, y') => y'.kernel.fs = y.kernel.fs)
        fun halt => halt ≠ .panic .logWriteOutsideOfTrans) y es := by
  intro before after m split run
  have proper' := proper.run space before after m split run
  have coherent := proper'.sound.within.coherent
  refine ⟨coherent.wellFormed.solid, fun s off count used valid low low' => ?_,
    fun p wakes f count => ?_⟩
  · exact coherent.readi_same used valid ⟨low, low'⟩
  · exact (proper'.fileread p wakes f count).mono (fun _ good => good.1) fun _ unlogged => unlogged

/-- On the image without files. -/
theorem reads_never_allocate_sample : ∃ img, Mkfs.mkfs [] = .ok img ∧
    Always System.serve (fun y => y.kernel.fs.view.Solid ∧
      (∀ s off count, 0 < (y.kernel.icache s).ref → (y.kernel.icache s).valid = true →
        off < 2 ^ 32 → count < 2 ^ 32 →
        ∃ r bytes, y.kernel.readi s off count = .ok (r, bytes, y.kernel)) ∧
      ∀ p wakes f count, Meets (y.fileread p wakes f count)
        (fun (_, _, y') => y'.kernel.fs = y.kernel.fs)
        fun halt => halt ≠ .panic .logWriteOutsideOfTrans) (boot img.boot) sampleCalls := by
  obtain ⟨img, made, space⟩ := exists_sample
  exact ⟨img, made, reads_never_allocate (proper_blank made) space⟩

/-- `open("f", O_RDWR)`, and `write` of thirteen blocks, one more than the file has. -/
def growCalls : List (Fin NPROC × FsCall) :=
  [byInit (.name (.open [102] O_RDWR)), byInit (.write 0 (fun _ => 1) 6656 [])]

/-- `open("f", O_RDONLY)`, and `read` of all of it. -/
def rereadCalls : List (Fin NPROC × FsCall) :=
  [byInit (.name (.open [102] O_RDONLY)), byInit (.read 1 6656 [])]

set_option maxRecDepth 100000 in
/-- **On a full disk** the file gets the header of the log as its indirect block. The commit clears
the address of its thirteenth block, and reading it allocates a block outside a transaction. -/
theorem full_disk_read_allocates : (boot Kernel.full.fs).Proper 8 ∧
    (∃ y, growCalls.foldlM System.serve (boot Kernel.full.fs) = .ok y ∧ ¬ y.kernel.fs.view.Solid) ∧
    (growCalls ++ rereadCalls).foldlM System.serve (boot Kernel.full.fs) =
      .error (.panic .logWriteOutsideOfTrans) := by
  obtain ⟨y, run, ends⟩ :=
    exists_of_endsIn (x := growCalls.foldlM System.serve (boot Kernel.full.fs))
    (P :=
      fun y => decide (y.kernel.fs.view.Live 2 ∧ 12 < blocksOf (y.kernel.fs.view.din 2).size.toNat ∧
      y.kernel.fs.view.slot 2 12 = 0) &&
        failsWith (rereadCalls.foldlM System.serve y) (.panic .logWriteOutsideOfTrans))
          (by decide +kernel)
  obtain ⟨hole, fails⟩ := (Bool.and_eq_true _ _).mp ends
  obtain ⟨live, inside, none'⟩ := of_decide_eq_true hole
  exact ⟨proper_full, ⟨y, run, fun solid => solid 2 live 12 inside none'⟩,
    run_append_error run (eq_error_of_failsWith fails)⟩

/-! ### The inode cache -/

section Ilock

variable {k : Kernel} {s : Slot}

theorem ilock_valid (used : 0 < (k.icache s).ref) (idle : (k.icache s).busy = false)
    (valid : (k.icache s).valid = true) :
    k.ilock s = .ok (k.setInode s { k.icache s with busy := true }) := by
  unfold Kernel.ilock
  simp only
  rw [if_neg (by omega), idle, if_neg Bool.false_ne_true, if_pos valid]

theorem ilock_dropped (used : 0 < (k.icache s).ref) (idle : (k.icache s).busy = false)
    (live : (k.fs.dinode (k.icache s).inum).type ≠ 0) :
    (k.setInode s { k.icache s with valid := false, din := .zero }).ilock s =
      .ok (k.setInode s { k.icache s with
        busy := true, valid := true, din := k.fs.dinode (k.icache s).inum }) := by
  unfold Kernel.ilock
  simp only [Kernel.icache_setInode_self, Kernel.fs_setInode]
  rw [if_neg (by omega), idle, if_neg Bool.false_ne_true, if_neg Bool.false_ne_true, if_neg live]
  unfold Kernel.setInode
  rw [Function.update_idem]

end Ilock

/-- **Cached inodes agree with the disk.** In every state of a run whose calls take blocks before
the log, an inode in use that is valid is the inode on the disk; and if it is not locked, `ilock`
ends the same way when the copy was dropped before. -/
theorem cached_inodes_agree (proper : y.Proper n) (space : EachStep System.serve HasSpace y es) :
    Always System.serve (fun y => ∀ s, 0 < (y.kernel.icache s).ref →
      (y.kernel.icache s).valid = true →
      (y.kernel.icache s).din = y.kernel.fs.dinode (y.kernel.icache s).inum ∧
      ((y.kernel.icache s).busy = false →
        (y.kernel.setInode s { y.kernel.icache s with valid := false, din := .zero }).ilock s =
          y.kernel.ilock s)) y es := by
  intro before after m split run s used valid
  have coherent := (proper.run space before after m split run).sound.within.coherent
  have locked := coherent.synced s used valid
  have same : (m.kernel.icache s).din = m.kernel.fs.dinode (m.kernel.icache s).inum :=
    locked.synced.symm.trans (if_pos locked.inside)
  refine ⟨same, fun idle => ?_⟩
  have live : (m.kernel.fs.dinode (m.kernel.icache s).inum).type ≠ 0 := same ▸ locked.live
  rw [ilock_valid used idle valid, ilock_dropped used idle live, ← same]
  simp only [valid]

/-- On the image without files. -/
theorem cached_inodes_agree_sample : ∃ img, Mkfs.mkfs [] = .ok img ∧
    Always System.serve (fun y => ∀ s, 0 < (y.kernel.icache s).ref →
      (y.kernel.icache s).valid = true →
      (y.kernel.icache s).din = y.kernel.fs.dinode (y.kernel.icache s).inum ∧
      ((y.kernel.icache s).busy = false →
        (y.kernel.setInode s { y.kernel.icache s with valid := false, din := .zero }).ilock s =
          y.kernel.ilock s)) (boot img.boot) sampleCalls := by
  obtain ⟨img, made, space⟩ := exists_sample
  exact ⟨img, made, cached_inodes_agree (proper_blank made) space⟩

/-- `open("g", O_CREATE | O_RDWR)`, `write` of three blocks, and `write` of one byte more. -/
def overwriteCalls : List (Fin NPROC × FsCall) :=
  [byInit (.name (.open [103] (O_CREATE ||| O_RDWR))), byInit (.write 0 (fun _ => 7) 1025 []),
    byInit (.write 0 (fun _ => 7) 1 [])]

/-- Two files are created and closed, the second is opened again and gets the slot that the first
had. -/
def reopenCalls : List (Fin NPROC × FsCall) :=
  [byInit (.name (.open [120] (O_CREATE ||| O_RDWR))),
    byInit (.name (.open [97] (O_CREATE ||| O_RDWR))), byInit (.name (.close 1)),
    byInit (.name (.close 0)), byInit (.name (.open [97] O_RDWR)),
    byInit (.write 0 (fun _ => 7) 1 [])]

set_option maxRecDepth 100000 in
/-- **On a full disk** the third block of the file is the place in the log for the block of inodes:
the commit installs the bytes of the file over the inodes, and the open file and its copy differ.
And on any disk a slot that is not in use keeps its copy and the flag, whatever happens to the
inode. -/
theorem cached_inodes_differ : (boot Kernel.full.fs).Proper 8 ∧
    (∃ y s, overwriteCalls.foldlM System.serve (boot Kernel.full.fs) = .ok y ∧
      0 < (y.kernel.icache s).ref ∧ (y.kernel.icache s).valid = true ∧
      (y.kernel.icache s).busy = false ∧
      (y.kernel.icache s).din.size ≠ (y.kernel.fs.dinode (y.kernel.icache s).inum).size) ∧
    ∃ img y s, Mkfs.mkfs [] = .ok img ∧ reopenCalls.foldlM System.serve (boot img.boot) = .ok y ∧
      (y.kernel.icache s).valid = true ∧ (y.kernel.icache s).busy = false ∧
      (y.kernel.icache s).din.size ≠ (y.kernel.fs.dinode (y.kernel.icache s).inum).size := by
  refine ⟨proper_full, ?_, ?_⟩
  · obtain ⟨y, run, differs⟩ := exists_of_endsIn
      (x := overwriteCalls.foldlM System.serve (boot Kernel.full.fs))
      (P := fun y => decide (0 < (y.kernel.icache ⟨1, by decide⟩).ref ∧
        (y.kernel.icache ⟨1, by decide⟩).valid = true ∧
        (y.kernel.icache ⟨1, by decide⟩).busy = false ∧ (y.kernel.icache ⟨1, by decide⟩).din.size ≠
          (y.kernel.fs.dinode (y.kernel.icache ⟨1, by decide⟩).inum).size)) (by decide +kernel)
    exact ⟨y, _, run, of_decide_eq_true differs⟩
  · obtain ⟨img, made, ends'⟩ := exists_of_endsIn (x := Mkfs.mkfs []) (P := fun img =>
      endsIn (reopenCalls.foldlM System.serve (boot img.boot)) fun y =>
        decide ((y.kernel.icache ⟨2, by decide⟩).valid = true ∧
          (y.kernel.icache ⟨2, by decide⟩).busy = false ∧
          (y.kernel.icache ⟨2, by decide⟩).din.size ≠
            (y.kernel.fs.dinode (y.kernel.icache ⟨2, by decide⟩).inum).size)) (by decide +kernel)
    obtain ⟨y, run, differs⟩ := exists_of_endsIn ends'
    exact ⟨img, y, _, made, run, of_decide_eq_true differs⟩

/-! ### Directories -/

/-- **Directories are not writable.** In every state of a run whose calls take blocks before the
log, no open file with the flag to write has the inode of a directory, and a call that neither adds
an entry with `dirlink` nor clears one leaves every directory with the entries it had. -/
theorem directories_not_writable (proper : y.Proper n)
    (space : EachStep System.serve HasSpace y es) :
    Always System.serve (fun y => ∀ f, (y.ftable f).type = .inode → (y.ftable f).writable = true →
      ¬ y.kernel.fs.view.tree.Dir (y.inum (y.ftable f).ip)) y es ∧
    EachStep System.serve (fun y e => e.2.edits = false → ∀ y', y.serve e = .ok y' → y.DirsKept y')
      y es := by
  refine ⟨fun before after m split run => (proper.run space before after m split run).readonly, ?_⟩
  intro before e after m t split run taken quiet y' taken'
  have proper' := proper.run space before (e :: after) m split run
  exact ((proper'.serve (space before e after m t split run taken)).of_ok taken').2 quiet

/-- On the image without files. -/
theorem directories_not_writable_sample : ∃ img, Mkfs.mkfs [] = .ok img ∧
    Always System.serve (fun y => ∀ f, (y.ftable f).type = .inode → (y.ftable f).writable = true →
      ¬ y.kernel.fs.view.tree.Dir (y.inum (y.ftable f).ip)) (boot img.boot) sampleCalls ∧
    EachStep System.serve (fun y e => e.2.edits = false → ∀ y', y.serve e = .ok y' → y.DirsKept y')
      (boot img.boot) sampleCalls := by
  obtain ⟨img, made, space⟩ := exists_sample
  exact ⟨img, made, directories_not_writable (proper_blank made) space⟩

/-- `mkdir("d")`, `open("f", O_RDWR)` and `unlink("f")`. -/
def unlinkCalls : List (Fin NPROC × FsCall) :=
  [byInit (.name (.mkdir [100])), byInit (.name (.open [102] O_RDWR)),
    byInit (.name (.unlink [102]))]

/-- The file goes. -/
def closeCall : Fin NPROC × FsCall := byInit (.name (.close 0))

set_option maxRecDepth 100000 in
/-- **On a full disk** the new directory has the header of the log as its block: closing the file,
which touches no entry of any directory, changes its entries. -/
theorem full_disk_close_changes_directory :
    (boot Kernel.full.fs).Proper 8 ∧ closeCall.2.edits = false ∧
    ∃ y y', unlinkCalls.foldlM System.serve (boot Kernel.full.fs) = .ok y ∧
      y.serve closeCall = .ok y' ∧
      y.kernel.fs.view.tree.Dir 3 ∧ y'.kernel.fs.view.tree.Dir 3 ∧
      y'.kernel.fs.view.tree.ents 3 ≠ y.kernel.fs.view.tree.ents 3 := by
  refine ⟨proper_full, rfl, ?_⟩
  obtain ⟨y, run, ends'⟩ :=
    exists_of_endsIn (x := unlinkCalls.foldlM System.serve (boot Kernel.full.fs))
    (P := fun y => endsIn (y.serve closeCall) fun y' => decide (y.kernel.fs.view.tree.Dir 3 ∧
      y'.kernel.fs.view.tree.Dir 3 ∧ y'.kernel.fs.view.tree.ents 3 ≠ y.kernel.fs.view.tree.ents 3))
    (by decide +kernel)
  obtain ⟨y', closed, facts'⟩ := exists_of_endsIn ends'
  exact ⟨y, y', run, closed, of_decide_eq_true facts'⟩

/-! ### References -/

/-- **Every reference is counted.** An open file counts the descriptors for it and is closed when
there is none; a cached inode counts the open files and current directories that have it, and no
inode is cached twice. -/
structure Counted (y : System) : Prop where
  files : ∀ f, (y.ftable f).ref = y.fds f
  closed : ∀ f, y.fds f = 0 → (y.ftable f).type = .none
  inodes : ∀ s, (y.kernel.icache s).ref = y.users s
  once : ∀ s t, 0 < y.users s → 0 < y.users t → y.inum s = y.inum t → s = t

/-- **An inode lives as long as it is linked or in use**: what a process has open or as its current
directory is allocated, and an allocated inode without links is in use. -/
structure Kept (y : System) : Prop where
  live : ∀ s, 0 < y.users s → y.kernel.fs.view.Live (y.inum s)
  used : ∀ i, y.kernel.fs.view.Live i → (y.kernel.fs.view.din i).nlink = 0 → ∃ s, 0 < y.users s ∧
    y.inum s = i

/-- **Reference counts are exact** in every state of a run whose calls take blocks before the
log. -/
theorem references_counted (proper : y.Proper n) (space : EachStep System.serve HasSpace y es) :
    Always System.serve Counted y es := by
  intro before after m split run
  have sound := (proper.run space before after m split run).sound
  have counts : ∀ s, (m.kernel.icache s).ref = m.users s := fun s =>
    (sound.within.counts s).trans (Int.add_zero _)
  refine ⟨sound.files, fun f none' => sound.closed f ?_, counts, fun s t used used' => ?_⟩
  · rw [sound.files, none']
    rfl
  · refine sound.within.coherent.unique s t ?_ ?_
    · rw [counts]
      exact Int.natCast_pos.mpr used
    · rw [counts]
      exact Int.natCast_pos.mpr used'

/-- On the image without files. -/
theorem references_counted_sample : ∃ img, Mkfs.mkfs [] = .ok img ∧
    Always System.serve Counted (boot img.boot) sampleCalls := by
  obtain ⟨img, made, space⟩ := exists_sample
  exact ⟨img, made, references_counted (proper_blank made) space⟩

/-- **No inode is freed in use, and none is lost**, in every state of such a run. -/
theorem inodes_kept (proper : y.Proper n) (space : EachStep System.serve HasSpace y es) :
    Always System.serve Kept y es := by
  intro before after m split run
  have within := (proper.run space before after m split run).sound.within
  refine ⟨within.held, fun i live unlinked => ?_⟩
  obtain ⟨s, used | none', here, _⟩ := within.anchored i live unlinked
  · exact ⟨s, used, here⟩
  · exact absurd none' List.not_mem_nil

/-- On the image without files. -/
theorem inodes_kept_sample : ∃ img, Mkfs.mkfs [] = .ok img ∧
    Always System.serve Kept (boot img.boot) sampleCalls := by
  obtain ⟨img, made, space⟩ := exists_sample
  exact ⟨img, made, inodes_kept (proper_blank made) space⟩

/-- **Blocks have exactly one owner** in every state of such a run. -/
theorem blocks_accounted (proper : y.Proper n) (space : EachStep System.serve HasSpace y es) :
    Always System.serve (fun y => y.kernel.fs.view.Accounted) y es := by
  intro before after m split run
  have within := (proper.run space before after m split run).sound.within
  exact Kernel.Sound.accounted ⟨within.coherent, within.apart⟩

/-- On the image without files. -/
theorem blocks_accounted_sample : ∃ img, Mkfs.mkfs [] = .ok img ∧
    Always System.serve (fun y => y.kernel.fs.view.Accounted) (boot img.boot) sampleCalls := by
  obtain ⟨img, made, space⟩ := exists_sample
  exact ⟨img, made, blocks_accounted (proper_blank made) space⟩

end System

end Xv6
