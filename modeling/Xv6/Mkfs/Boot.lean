/-
**The file system of a finished image.**

What the kernel finds on an image of `mkfs` after boot: the super block, exact ownership of the
blocks, the files, and a well-formed file system unless the root directory filled its last block.
`initlog` recovers from whatever stands where the log is; `Finished.initlog` says that this is
nothing when the blocks of the image end before the log.
-/

import Xv6.Fs.Files
import Xv6.Fs.Transaction
import Xv6.Mkfs.Sound

namespace Xv6.Mkfs

open Lib

/-- `initlog` on the image: the log is placed by the super block, and `recover_from_log` runs.
`none` where `read_head` would run over the end of the header. -/
def Img.initlog (img : Img) : Option Fs :=
  let sb := img.boot.readsb
  match (Log.init sb.size.toNat sb.nlog.toNat).recoverFromLog (Bufs.boot img.blk) with
  | none => none
  | some (log, bufs) => some { img.boot with blk := bufs.view, log }

section Boot

variable {files : List InputFile} {built img : Img}

theorem Finished.readsb (holds : Built files built) (finished : Finished built img) :
    img.boot.readsb = sb := by
  have same : img.boot.view.sb = built.marked.sb := by
    rw [finished.view]
    rfl
  exact same.trans holds.wf.ok.sb

/-- **The log is empty at boot**, if the blocks of the image end before it. -/
theorem Finished.initlog (holds : Built files built) (finished : Finished built img)
    (fits : usedBlocks files ≤ size - nlog) : img.initlog = some img.boot := by
  have sb := finished.readsb holds
  have start : Mkfs.sb.dataStart ≤ size - nlog := by decide
  have clean : img.blk (size - nlog) = Block.zero := calc
    img.blk (size - nlog)
    _ = img.boot.view.data (size - nlog) := (Fs.view_data_of_le (sb ▸ start)).symm
    _ = built.boot.view.data (size - nlog) := by rw [finished.view]; rfl
    _ = built.blk (size - nlog) :=
      Fs.view_data_of_le ((show built.boot.view.sb = Mkfs.sb from holds.wf.ok.sb) ▸ start)
    _ = Block.zero := holds.wf.ok.clean _ (holds.freeblock ▸ fits)
  obtain ⟨bufs, recovered, view⟩ :=
    @Log.recoverFromLog_clean (Log.init size nlog) _ rfl (show img.blk _ = _ from clean)
  unfold Img.initlog
  simp only [sb]
  rw [show Log.init Mkfs.sb.size.toNat Mkfs.sb.nlog.toNat = Log.init size nlog from rfl, recovered]
  simp only [view]
  rfl

theorem Finished.owned (holds : Built files built) (finished : Finished built img) :
    img.boot.view.Owned := by
  rw [finished.view]
  exact holds.wf.wellFormed.owned.setDin (addrs_roundedRoot _) (by rw [type_roundedRoot])

theorem Finished.shaped (holds : Built files built) (finished : Finished built img) {i : Nat}
    (live : img.boot.view.Live i) :
    img.boot.view.Shaped i (blocksOf (built.marked.din i).size.toNat) := by
  rw [finished.view]
  exact (holds.wf.wellFormed.shaped i ((finished.live i).mp live)).setDin (addrs_roundedRoot _)

theorem Finished.din (finished : Finished built img) {i : Nat} (other : i ≠ ROOTINO) :
    img.boot.view.din i = built.marked.din i := by
  rw [finished.view]
  exact View.din_setDin_of_ne other _ _

theorem Finished.file (holds : Built files built) (finished : Finished built img) {k : Nat}
    {file : InputFile} (at' : files[k]? = some file) :
    (img.boot.view.din (k + 2)).type = T_FILE ∧ (img.boot.view.din (k + 2)).nlink = 1 ∧
      img.boot.view.contents (k + 2) = file.bytes := by
  have other : k + 2 ≠ ROOTINO := Nat.succ_succ_ne_one k
  obtain ⟨type, nlink⟩ := holds.fileType k file at'
  refine ⟨by rw [finished.din other, type], by rw [finished.din other, nlink], ?_⟩
  rw [finished.view, View.contents_setDin_of_ne other]
  exact holds.file k file at'

/-- **The booted image is well formed**, unless the root directory filled its last block. -/
theorem Finished.wellFormed (holds : Built files built) (finished : Finished built img)
    (unfilled : (files.length + 2) % (BSIZE / DIRENTSIZE) ≠ 0) : img.boot.view.WellFormed := by
  have few : files.length + 2 ≤ 200 := holds.freeinode ▸ holds.wf.inodes
  refine ⟨finished.owned holds, ?_, ?_⟩
  · intro i live
    by_cases root : i = ROOTINO
    · rw [root, finished.rootSize holds]
      unfold rounded
      rw [DIRENTSIZE_eq, BSIZE_eq, MAXFILE_eq]
      omega
    · rw [finished.din root]
      exact holds.wf.wellFormed.small i ((finished.live i).mp live)
  · intro i live
    have shaped := finished.shaped holds live
    by_cases root : i = ROOTINO
    · subst root
      have same : blocksOf (img.boot.view.din ROOTINO).size.toNat =
          blocksOf (built.marked.din ROOTINO).size.toNat := by
        rw [finished.rootSize holds, holds.rootSize]
        unfold blocksOf rounded
        rw [DIRENTSIZE_eq, BSIZE_eq] at *
        omega
      rw [same]
      exact shaped
    · rw [finished.din root]
      exact shaped

theorem free_one {built img : Img} (holds : Built (List.replicate 1 emptyFile) built)
    (finished : Finished built img) :
    img.boot.view.free = (List.range 1024).filter fun b => decide (30 ≤ b) := by
  have used : built.freeblock = 30 := by
    rw [holds.freeblock, usedBlocks_empty]
    decide
  have range : (img.boot.view.sb.size).toNat = 1024 := by
    show img.boot.readsb.size.toNat = 1024
    rw [finished.readsb holds]
    rfl
  unfold View.free
  rw [range]
  apply List.filter_congr
  intro b inside
  have bit := finished.bit (b := b) (List.mem_range.mp inside)
  rw [used] at bit
  by_cases low : b < 30
  · rw [bit.mpr low, decide_eq_false (by omega)]
    rfl
  · have clear : img.boot.view.bit b = false := by
      rw [← Bool.not_eq_true, bit]
      exact low
    rw [clear, decide_eq_true (by omega)]
    rfl

theorem quiet_boot (img : Img) : img.boot.Quiet := ⟨rfl, rfl, rfl⟩

theorem capacity_boot (img : Img) : img.boot.log.capacity = 29 := rfl

/-- The inode of the only file of an image, locked. -/
def onlyFile (img : Img) : Inode := ⟨ROOTDEV, 2, 1, true, true, img.boot.view.din 2⟩

theorem onlyFile_din (holds : Built (List.replicate 1 emptyFile) built)
    (finished : Finished built img) :
    (img.boot.view.din 2).type = T_FILE ∧ (img.boot.view.din 2).size.toNat = 0 ∧
      img.boot.view.contents 2 = [] := by
  obtain ⟨type, _, bytes⟩ := finished.file holds (k := 0) rfl
  refine ⟨type, ?_, bytes⟩
  rw [← View.length_contents, bytes]
  rfl

theorem blocks_onlyFile (holds : Built (List.replicate 1 emptyFile) built)
    (finished : Finished built img) : Fs.blocks (onlyFile img) = 0 := by
  unfold Fs.blocks
  rw [show (onlyFile img).din.size.toNat = 0 from (onlyFile_din holds finished).2.1]
  decide

theorem locked_onlyFile (holds : Built (List.replicate 1 emptyFile) built)
    (finished : Finished built img) : img.boot.begun.Locked (onlyFile img) where
  inside := by
    show 2 < img.boot.readsb.ninodes.toNat
    rw [finished.readsb holds]
    decide
  wellFormed := finished.wellFormed holds (by decide)
  synced := rfl
  live := by
    show (img.boot.view.din 2).type ≠ 0
    rw [(onlyFile_din holds finished).1]
    decide

end Boot

end Xv6.Mkfs
