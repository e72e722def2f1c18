/-
**`main` of `mkfs`, as a whole.**

`addFile_meets` is one turn of the loop over the arguments, `mkfs_meets` the run: with at most
`ninodes - 2` files, `mkfs` stops for one of four reasons, each of which says what is wrong with the
input, or it ends with an image that holds every file.
-/

import Xv6.Mkfs.Image

namespace Xv6.Mkfs

open Lib Function

theorem withRoot_eq : ∃ img, withRoot = .ok (ROOTINO, img) ∧ Built [] img := by
  obtain ⟨img, result, wf, marked, blocks, inodes⟩ :=
    wf_blank.ialloc_eq (by decide) (show T_DIR ≠ 0 by decide)
  have live : img.marked.Live ROOTINO := (wf.live _).mpr ⟨le_rfl, by rw [inodes]; decide⟩
  have root :
      img.marked.din ROOTINO = { Dinode.zero with type := T_DIR, nlink := 1, size := 0 } := by
    rw [marked]
    exact View.din_setDin_self ..
  have empty : img.marked.contents ROOTINO = [] := by
    rw [← List.length_eq_zero_iff, View.length_contents, root]
    rfl
  have start : img.blocks ROOTINO = 0 := by
    unfold Img.blocks
    rw [root]
    rfl
  have first : img.freeblock = metablocks := blocks
  -- Both entries go to one block, so neither append can fail.
  have room : ∀ (p : List UInt8), p.length ≤ 2 * DIRENTSIZE → ∀ stop,
      ¬ img.Overflows ROOTINO p stop := by
    rintro p short stop (⟨_, full⟩ | ⟨_, long⟩)
    · have one : blocksOf ((img.marked.contents ROOTINO).length + p.length) ≤ 1 := by
        rw [blocksOf_le, empty]
        rw [DIRENTSIZE_eq] at short
        rw [BSIZE_eq, List.length_nil]
        omega
      have : growth 0 (blocksOf ((img.marked.contents ROOTINO).length + p.length)) ≤ 1 := by
        unfold growth
        rw [NDIRECT_eq, if_neg (by omega)]
        omega
      rw [start, first] at full
      have big : size = 1024 := rfl
      have small : metablocks = 29 := rfl
      omega
    · rw [empty, List.length_nil] at long
      rw [DIRENTSIZE_eq] at short
      rw [MAXFILE_eq, BSIZE_eq] at long
      omega
  obtain ⟨img₁, dot, one⟩ := ((wf.append_meets live (dirent ROOTINO [46]).encode).mono
    (fun _ good => good) fun stop bad => room _ (by rw [length_dirent]; omega) stop bad).exists_ok
  obtain ⟨img₂, dotdot, two⟩ := ((one.wf.append_meets ((one.live _).mpr live)
    (dirent ROOTINO [46, 46]).encode).mono (fun _ good => good) fun stop bad =>
      room _ (by rw [List.length_append, length_dirent, length_dirent]; omega) stop
        (one.overflows bad)).exists_ok
  have both := one.trans two
  refine ⟨img₂, ?_, both.wf, ?_, ?_, ?_, ?_, ?_, ?_⟩
  · unfold withRoot
    rw [result]
    simp only [Lib.ok_bind]
    rw [if_pos (show blank.freeinode = ROOTINO from rfl),
      show blank.freeinode = ROOTINO from rfl, dot]
    simp only [Lib.ok_bind]
    rw [dotdot]
    rfl
  · rw [both.freeinode, inodes]
    rfl
  · rw [both.freeblock, start, empty, first, List.length_append, length_dirent, length_dirent]
    rfl
  · rw [both.fields, root]
    exact ⟨rfl, rfl⟩
  · rw [both.contents, empty]
    simp [rootEntries]
  · intro k file at'
    simp at at'
  · intro k file at'
    simp at at'

/-- The reasons why adding files stops. -/
def Rejects (files : List InputFile) (stop : Stop) : Prop :=
  stop = .slash ∧ (∃ file ∈ files, 47 ∈ file.name) ∨
    stop = .openFile ∧ (∃ file ∈ files, file.chunks = none) ∨
    stop = .read ∧ size < usedBlocks files ∨
    stop = .maxfile ∧ ∃ file ∈ files, MAXFILE * BSIZE < file.bytes.length

theorem usedBlocks_snoc (files : List InputFile) (file : InputFile) :
    usedBlocks (files ++ [file]) = usedBlocks files +
      growth (blocksOf (DIRENTSIZE * (files.length + 2)))
      (blocksOf (DIRENTSIZE * (files.length + 3))) + blocksFor file.bytes.length := by
  have root := growth_add (Nat.zero_le (blocksOf (DIRENTSIZE * (files.length + 2))))
    (blocksOf_mono
      (Nat.mul_le_mul_left DIRENTSIZE (by omega : files.length + 2 ≤ files.length + 3)))
  unfold usedBlocks blocksFor
  rw [List.map_append, List.sum_append, List.length_append, List.length_singleton,
    show files.length + 1 + 2 = files.length + 3 by omega, root]
  simp only [List.map_singleton, List.sum_singleton]
  omega

theorem Built.addFile_meets {done : List InputFile} {img : Img} (built : Built done img)
    (file : InputFile) (few : done.length + 2 < ninodes) :
    Meets (addFile ROOTINO img file) (Built (done ++ [file])) (Rejects (done ++ [file])) := by
  unfold addFile
  have here : file ∈ done ++ [file] := by simp
  by_cases slash : 47 ∈ file.name
  · rw [if_pos slash]
    exact .inl ⟨rfl, file, here, slash⟩
  rw [if_neg slash]
  cases opened : file.chunks with
  | none => exact .inr (.inl ⟨rfl, file, here, opened⟩)
  | some chunks =>
    have bytes : file.bytes = chunks.flatten := by
      unfold InputFile.bytes
      rw [opened]
      rfl
    have number := built.freeinode
    obtain ⟨img₁, result, wf, marked, blocks, inodes⟩ :=
      built.wf.ialloc_eq (by rw [number]; exact few) (show T_FILE ≠ 0 by decide)
    rw [number] at result marked inodes
    have other : ROOTINO ≠ done.length + 2 := by
      have : ROOTINO = 1 := rfl
      omega
    have liveRoot : img₁.marked.Live ROOTINO := (wf.live _).mpr ⟨le_rfl, by
      rw [inodes]
      have : ROOTINO = 1 := rfl
      omega⟩
    have liveFile : img₁.marked.Live (done.length + 2) := (wf.live _).mpr ⟨by omega, by omega⟩
    have rootBytes : img₁.marked.contents ROOTINO = (rootEntries done).flatMap Dirent.encode := by
      rw [marked, View.contents_setDin_of_ne other, built.root]
    have newDin : img₁.marked.din (done.length + 2) =
        { Dinode.zero with type := T_FILE, nlink := 1, size := 0 } := by
      rw [marked, View.din_setDin_self]
    have newBytes : img₁.marked.contents (done.length + 2) = [] := by
      rw [← List.length_eq_zero_iff, View.length_contents, newDin]
      rfl
    have rootBlocks : img₁.blocks ROOTINO = blocksOf (DIRENTSIZE * (done.length + 2)) := by
      rw [Img.blocks_eq, rootBytes, length_rootEntries]
    have total := usedBlocks_snoc done file
    rw [result]
    simp only [Lib.ok_bind]
    have rootLength :
        DIRENTSIZE * (done.length + 2) + DIRENTSIZE = DIRENTSIZE * (done.length + 3) :=
      (Nat.mul_succ _ _).symm
    refine ((wf.append_meets liveRoot (dirent (done.length + 2) file.stripped).encode).mono
      (fun _ good => good) ?_).bind ?_
    · rintro stop (⟨rfl, full⟩ | ⟨_, long⟩)
      · refine .inr (.inr (.inl ⟨rfl, ?_⟩))
        rw [rootBlocks, rootBytes, length_rootEntries, length_dirent, rootLength, blocks,
          built.freeblock] at full
        omega
      · rw [rootBytes, length_rootEntries, length_dirent, rootLength, DIRENTSIZE_eq, MAXFILE_eq,
          BSIZE_eq] at long
        have : ninodes = 200 := rfl
        omega
    intro img₂ named
    have newBytes₂ : img₂.marked.contents (done.length + 2) = [] := by
      rw [named.otherContents _ other.symm liveFile, newBytes]
    have newBlocks₂ : img₂.blocks (done.length + 2) = 0 := by
      rw [Img.blocks_eq, newBytes₂]
      rfl
    have blocks₂ :
        img₂.freeblock = usedBlocks done + growth (blocksOf (DIRENTSIZE * (done.length + 2)))
          (blocksOf (DIRENTSIZE * (done.length + 3))) := by
      rw [named.freeblock, rootBlocks, rootBytes, length_rootEntries, length_dirent, rootLength,
        blocks, built.freeblock]
    refine (named.wf.appendChunks_meets ((named.live _).mpr liveFile) chunks).mono ?_ ?_
    · intro img₃ filled
      have later : ∀ k, k < done.length → k + 2 ≠ done.length + 2 ∧ k + 2 ≠ ROOTINO ∧
          img₁.marked.Live (k + 2) := by
        intro k below
        have : ROOTINO = 1 := rfl
        exact ⟨by omega, by omega, (wf.live _).mpr ⟨by omega, by omega⟩⟩
      refine ⟨filled.wf, ?_, ?_, ?_, ?_, ?_, ?_⟩
      · rw [filled.freeinode, named.freeinode, inodes, List.length_append, List.length_singleton]
      · rw [filled.freeblock, newBlocks₂, newBytes₂, blocks₂, total, bytes, List.length_nil,
          Nat.zero_add, blocksFor]
      · rw [filled.otherDins _ other, named.fields, marked, View.din_setDin_of_ne other]
        exact built.rootType
      · rw [filled.otherContents _ other ((named.live _).mpr liveRoot), named.contents, rootBytes,
          rootEntries_snoc]
      · intro k other' at'
        rcases lt_or_ge k done.length with below | above
        · rw [List.getElem?_append_left below] at at'
          obtain ⟨apart, notRoot, _⟩ := later k below
          rw [filled.otherDins _ apart, named.otherDins _ notRoot, marked,
            View.din_setDin_of_ne apart]
          exact built.fileType k other' at'
        · have same : k = done.length := by
            have := (List.getElem?_eq_some_iff.mp at').1
            rw [List.length_append, List.length_singleton] at this
            omega
          rw [same, filled.fields, named.otherDins _ other.symm, newDin]
          exact ⟨rfl, rfl⟩
      · intro k other' at'
        rcases lt_or_ge k done.length with below | above
        · rw [List.getElem?_append_left below] at at'
          obtain ⟨apart, notRoot, live₁⟩ := later k below
          rw [filled.otherContents _ apart ((named.live _).mpr live₁),
            named.otherContents _ notRoot live₁, marked, View.contents_setDin_of_ne apart]
          exact built.file k other' at'
        · have same : k = done.length := by
            have := (List.getElem?_eq_some_iff.mp at').1
            rw [List.length_append, List.length_singleton] at this
            omega
          subst same
          rw [List.getElem?_append_right le_rfl, Nat.sub_self] at at'
          obtain rfl : file = other' := by simpa using at'
          rw [filled.contents, newBytes₂, List.nil_append, bytes]
    · rintro stop (⟨rfl, full⟩ | ⟨rfl, long⟩)
      · refine .inr (.inr (.inl ⟨rfl, ?_⟩))
        rw [newBlocks₂, newBytes₂, blocks₂, List.length_nil, Nat.zero_add, ← bytes] at full
        rw [total]
        exact full
      · refine .inr (.inr (.inr ⟨rfl, file, here, ?_⟩))
        rw [newBytes₂, List.length_nil, Nat.zero_add, ← bytes] at long
        exact long

/-! ### The end of `main` -/

theorem bit_firstBits {used : Nat} (bound : used ≤ BPB) (bi : Nat) :
    (Img.firstBits used).bit bi = decide (bi < used) := by
  induction used with
  | zero =>
    rw [show Img.firstBits 0 = Block.zero from rfl, Block.bit_zero]
    simp
  | succ used ih =>
    have step : Img.firstBits (used + 1) = (Img.firstBits used).setBit used := by
      unfold Img.firstBits
      rw [List.range_succ, List.foldl_append]
      rfl
    rw [step, Block.bit_setBit bound, ih (Nat.le_of_succ_le bound), ← Bool.decide_or,
      decide_eq_decide]
    omega

/-- The size of the root directory after it was rounded up. -/
def rounded (size : Nat) : Nat := (size / BSIZE + 1) * BSIZE

/-- The inode of the root directory after its size was rounded up. -/
def roundedRoot (d : Dinode) : Dinode := { d with size := UInt32.ofNat (rounded d.size.toNat) }

theorem addrs_roundedRoot (d : Dinode) : (roundedRoot d).addrs = d.addrs := rfl

theorem type_roundedRoot (d : Dinode) : (roundedRoot d).type = d.type := rfl

/-- **The finished image**: the root directory is rounded up, and the bitmap marks the blocks that
were handed out. -/
structure Finished (built img : Img) : Prop where
  view : img.boot.view = built.marked.setDin ROOTINO (roundedRoot (built.marked.din ROOTINO))
  freeblock : img.freeblock = built.freeblock
  freeinode : img.freeinode = built.freeinode

theorem Img.Ok.view_balloc {img : Img} (ok : img.Ok) :
    (img.wsect (ninodes / IPB + 3) (firstBits img.usedblocks)).boot.view = img.marked := by
  have sb :
      (img.wsect (ninodes / IPB + 3) (firstBits img.usedblocks)).boot.readsb = img.boot.readsb :=
    Fs.readsb_update rfl (by decide)
  have blk : (img.wsect (ninodes / IPB + 3) (firstBits img.usedblocks)).boot.blk =
      update img.boot.blk (ninodes / IPB + 3) (firstBits img.usedblocks) := rfl
  have high := ok.high
  have big : size = 1024 := rfl
  apply View.ext
  · exact sb
  · funext b
    show (if b < (Superblock.size _).toNat then _ else true) = decide (b < img.freeblock ∨ size ≤ b)
    rw [sb, ok.sb, blk]
    by_cases inside : b < Mkfs.sb.size.toNat
    · have inside' : b < size := inside
      have block : BBLOCK b Mkfs.sb.ninodes.toNat = ninodes / IPB + 3 := by
        rw [Img.ninodes_sb]
        unfold BBLOCK
        rw [BPB_eq]
        omega
      rw [if_pos inside, block, update_self, bit_firstBits (by rw [ok.used, BPB_eq]; omega),
        ok.used, decide_eq_decide, BPB_eq]
      omega
    · have outside : size ≤ b := Nat.le_of_not_lt inside
      rw [if_neg inside]
      simp [outside]
  · funext i
    show (if i < (Superblock.ninodes _).toNat then Fs.dinode _ i else Dinode.zero) =
      img.boot.view.din i
    rw [sb]
    by_cases inside : i < img.boot.readsb.ninodes.toNat
    · have apart : IBLOCK i ≠ ninodes / IPB + 3 := by
        rw [ok.sb, Img.ninodes_sb] at inside
        unfold IBLOCK
        rw [IPB_eq]
        unfold ninodes at *
        omega
      rw [if_pos inside, Fs.view_din_of_lt inside]
      unfold Fs.dinode
      rw [blk, update_of_ne apart]
    · rw [if_neg inside]
      exact (if_neg inside).symm
  · funext b
    show (if Superblock.dataStart _ ≤ b then _ else Block.zero) = img.boot.view.data b
    rw [sb, blk]
    by_cases inside : img.boot.readsb.dataStart ≤ b
    · have apart : b ≠ ninodes / IPB + 3 := by
        rw [ok.sb, Img.dataStart_sb] at inside
        have : metablocks = 29 := rfl
        have : ninodes / IPB + 3 = 28 := rfl
        omega
      rw [if_pos inside, update_of_ne apart, Fs.view_data_of_le inside]
    · rw [if_neg inside]
      exact (if_neg inside).symm

theorem finish_eq {built : Img} (wf : built.Wf) :
    ∃ img, finish ROOTINO built = .ok img ∧ Finished built img := by
  have inside : ROOTINO < ninodes := by decide
  obtain ⟨img, result, ok, marked, blocks, inodes⟩ :=
    wf.ok.winode_eq inside (roundedRoot (built.marked.din ROOTINO))
  refine ⟨img.wsect (ninodes / IPB + 3) (Img.firstBits img.usedblocks), ?_, ?_, blocks, inodes⟩
  · unfold finish
    rw [wf.ok.rinode_eq inside]
    simp only [Lib.ok_bind]
    have store : built.winode ROOTINO { built.marked.din ROOTINO with
        size := UInt32.ofNat (((built.marked.din ROOTINO).size.toNat / BSIZE + 1) * BSIZE) } =
          .ok img :=
      result
    rw [store]
    simp only [Lib.ok_bind]
    unfold Img.balloc
    rw [if_pos]
    rw [ok.used]
    exact ok.high.trans_lt (by decide)
  · rw [ok.view_balloc, marked]

theorem mkfs_meets {files : List InputFile} (few : files.length + 1 < ninodes) :
    Meets (mkfs files) (fun img => ∃ built, Built files built ∧ Finished built img)
      (Rejects files) := by
  obtain ⟨start, result, empty⟩ := withRoot_eq
  unfold mkfs
  rw [result]
  simp only [Lib.ok_bind]
  refine (Meets.foldlM (fun done img => Built done img) empty ?_).bind ?_
  · intro done file rest img split built
    have short : done.length + 2 < ninodes := by
      have := congrArg List.length split
      rw [List.length_append, List.length_cons] at this
      omega
    refine (built.addFile_meets file short).mono (fun _ good => good) ?_
    have whole : files = (done ++ [file]) ++ rest := by rw [split]; simp
    have sub : ∀ f ∈ done ++ [file], f ∈ files := fun f member =>
      whole ▸ List.mem_append_left rest member
    rintro stop
      (⟨rfl, f, member, slash⟩ | ⟨rfl, f, member, closed⟩ | ⟨rfl, full⟩ | ⟨rfl, f, member, long⟩)
    · exact .inl ⟨rfl, f, sub f member, slash⟩
    · exact .inr (.inl ⟨rfl, f, sub f member, closed⟩)
    · refine .inr (.inr (.inl ⟨rfl, full.trans_le ?_⟩))
      rw [whole]
      exact usedBlocks_mono _ _
    · exact .inr (.inr (.inr ⟨rfl, f, sub f member, long⟩))
  · intro built holds
    obtain ⟨img, result', finished⟩ := finish_eq holds.wf
    rw [result']
    exact ⟨built, holds, finished⟩

end Xv6.Mkfs
