/-
**The image that `mkfs` writes.**

`Built files img`: what the image holds after the input files `files` were added. `mkfs_meets`: with
few enough files that the inode table holds them, `mkfs` either stops for one of four reasons or
ends with that image, its root directory rounded up and its bitmap written.
-/

import Xv6.Mkfs.Append

namespace Xv6.Mkfs

open Lib

namespace Img

/-- The image is well formed once its blocks are marked, and the inodes below `freeinode` are
allocated. -/
structure Wf (img : Img) : Prop where
  ok : img.Ok
  wellFormed : img.marked.WellFormed
  first : 1 ≤ img.freeinode
  inodes : img.freeinode ≤ ninodes
  live : ∀ i, img.marked.Live i ↔ 1 ≤ i ∧ i < img.freeinode

section Wf

variable {img : Img}

/-- The number of blocks of inode `i`. -/
def blocks (img : Img) (i : Nat) : Nat := blocksOf (img.marked.din i).size.toNat

theorem Wf.iappend_meets (wf : img.Wf) {i : Nat} (live : img.marked.Live i) (p : List UInt8) :
    Meets (img.iappend i p)
      (fun img' => img'.Wf ∧
        (∃ taken, img.marked.Rewritten img'.marked i (img.marked.din i).size.toNat p taken) ∧
        img'.freeblock = img.freeblock +
          growth (img.blocks i) (blocksOf ((img.marked.din i).size.toNat + p.length)) ∧
        img'.freeinode = img.freeinode)
      (img.Fails (img.blocks i) (blocksOf ((img.marked.din i).size.toNat + p.length))
        (img.marked.din i).size.toNat p.length) := by
  have inside : i < ninodes := ((wf.live i).mp live).2.trans_le wf.inodes
  have same : img.viewOf i (img.marked.din i) = img.marked := View.setDin_self rfl
  have holds : Holds img i (img.marked.din i) (img.blocks i) :=
    ⟨⟨wf.ok, inside, same.symm ▸ wf.wellFormed.owned, live⟩,
      same.symm ▸ wf.wellFormed.shaped i live⟩
  have total : max (img.blocks i) (blocksOf ((img.marked.din i).size.toNat + p.length)) =
      blocksOf ((img.marked.din i).size.toNat + p.length) :=
    max_eq_right (blocksOf_mono (Nat.le_add_right _ _))
  have loop := holds.appendLoop_meets (p := p)
    (show (img.marked.din i).size.toNat ≤ _ from blocksOf_le.mp le_rfl)
  unfold iappend
  rw [wf.ok.rinode_eq inside]
  simp only [Lib.ok_bind]
  rw [total] at loop
  refine loop.bind ?_
  rintro ⟨din₁, img₁⟩ ⟨taken, appended⟩
  have short := appended.edits.shaped.bound
  rw [blocksOf_le] at short
  have word : (img.marked.din i).size.toNat + p.length < 2 ^ 32 := short.trans_lt (by decide)
  obtain ⟨img', result, ok, marked, blocks', inodes'⟩ := appended.ok.winode_eq inside
    { din₁ with size := UInt32.ofNat ((img.marked.din i).size.toNat + p.length) }
  simp only
  rw [result]
  have final : img'.marked = (img₁.viewOf i din₁).setDin i
      { din₁ with size := UInt32.ofNat ((img.marked.din i).size.toNat + p.length) } := by
    rw [marked]
    exact (View.setDin_setDin ..).symm
  have edits := appended.edits
  have bytes := appended.bytes
  rw [same] at edits bytes
  have effect : img.marked.Rewritten img'.marked i (img.marked.din i).size.toNat p taken := by
    rw [final]
    refine .of_edits wf.wellFormed live le_rfl short ?_ bytes ?_ ?_
    · rw [show blocksOf (img.marked.din i).size.toNat = img.blocks i from rfl, total]
      exact edits
    · rw [din_viewOf]
    · show (UInt32.ofNat _).toNat = _
      rw [UInt32.toNat_ofNat', Nat.mod_eq_of_lt word]
      omega
  refine ⟨⟨ok, effect.wellFormed, ?_, ?_, ?_⟩, ⟨taken, effect⟩, ?_, ?_⟩
  · rw [inodes', appended.inodes]
    exact wf.first
  · rw [inodes', appended.inodes]
    exact wf.inodes
  · intro j
    have alive : img'.marked.Live j ↔ img.marked.Live j := by
      unfold View.Live
      by_cases at' : j = i
      · rw [at', effect.fields]
      · rw [effect.otherDins j at']
    rw [alive, inodes', appended.inodes]
    exact wf.live j
  · rw [blocks', appended.count]
  · rw [inodes', appended.inodes]

theorem Wf.ialloc_eq (wf : img.Wf) (room : img.freeinode < ninodes) {type : Int16}
    (some' : type ≠ 0) :
    ∃ img', img.ialloc type = .ok (img.freeinode, img') ∧ img'.Wf ∧
      img'.marked =
      img.marked.setDin img.freeinode { Dinode.zero with type, nlink := 1, size := 0 } ∧
      img'.freeblock = img.freeblock ∧ img'.freeinode = img.freeinode + 1 := by
  have counted : ({ img with freeinode := img.freeinode + 1 } : Img).Ok :=
    ⟨wf.ok.sb, wf.ok.sectors, wf.ok.used, wf.ok.low, wf.ok.high, wf.ok.clean⟩
  obtain ⟨img', result, ok, marked, blocks', inodes'⟩ := counted.winode_eq room
    { Dinode.zero with type, nlink := 1, size := 0 }
  have dead : ¬ img.marked.Live img.freeinode := by
    rw [wf.live]
    omega
  have marked' : img'.marked =
      img.marked.setDin img.freeinode { Dinode.zero with type, nlink := 1, size := 0 } := marked
  have inodes'' : img'.freeinode = img.freeinode + 1 := inodes'
  refine ⟨img', ?_, ⟨ok, ?_, ?_, ?_, ?_⟩, marked', blocks', inodes''⟩
  · unfold ialloc
    simp only
    rw [result]
    rfl
  · rw [marked']
    refine wf.wellFormed.addInode dead (fun k => ?_) rfl
    unfold Dinode.addr
    split <;> rfl
  · omega
  · rw [inodes'']
    exact room
  · intro i
    rw [marked', inodes'']
    by_cases same : i = img.freeinode
    · subst same
      unfold View.Live
      rw [View.din_setDin_self]
      have := wf.first
      exact iff_of_true some' (by omega)
    · have alive : (img.marked.setDin img.freeinode
          { Dinode.zero with type, nlink := 1, size := 0 }).Live i ↔ img.marked.Live i := by
        unfold View.Live
        rw [View.din_setDin_of_ne same]
      rw [alive, wf.live]
      omega

end Wf

/-! ### Appending more than once -/

/-- Some calls of `iappend` together added `bytes` to inode `i`. -/
structure Extended (img img' : Img) (i : Nat) (bytes : List UInt8) : Prop where
  wf : img'.Wf
  contents : img'.marked.contents i = img.marked.contents i ++ bytes
  fields : img'.marked.din i = { img.marked.din i with
    size := (img'.marked.din i).size, addrs := (img'.marked.din i).addrs }
  otherDins : ∀ j, j ≠ i → img'.marked.din j = img.marked.din j
  otherContents : ∀ j, j ≠ i → img.marked.Live j → img'.marked.contents j = img.marked.contents j
  freeblock : img'.freeblock = img.freeblock +
    growth (img.blocks i) (blocksOf ((img.marked.contents i).length + bytes.length))
  freeinode : img'.freeinode = img.freeinode

section Extended

variable {img m img' : Img} {i : Nat} {first second : List UInt8}

theorem blocks_eq (img : Img) (i : Nat) :
    img.blocks i = blocksOf (img.marked.contents i).length := by
  rw [View.length_contents]
  rfl

theorem Extended.refl (wf : img.Wf) (i : Nat) : Extended img img i [] where
  wf := wf
  contents := (List.append_nil _).symm
  fields := rfl
  otherDins _ _ := rfl
  otherContents _ _ _ := rfl
  freeblock := by
    rw [List.length_nil, Nat.add_zero, ← blocks_eq, growth_self]
    rfl
  freeinode := rfl

theorem Extended.live (extended : Extended img img' i first) (j : Nat) :
    img'.marked.Live j ↔ img.marked.Live j := by
  unfold View.Live
  by_cases same : j = i
  · rw [same, extended.fields]
  · rw [extended.otherDins j same]

theorem Extended.blocks (extended : Extended img img' i first) :
    img'.blocks i = blocksOf ((img.marked.contents i).length + first.length) := by
  rw [blocks_eq, extended.contents, List.length_append]

theorem Extended.le_blocks (img : Img) (i : Nat) (bytes : List UInt8) :
    img.blocks i ≤ blocksOf ((img.marked.contents i).length + bytes.length) := by
  rw [blocks_eq]
  exact blocksOf_mono (Nat.le_add_right _ _)

theorem Extended.trans (one : Extended img m i first) (two : Extended m img' i second) :
    Extended img img' i (first ++ second) where
  wf := two.wf
  contents := by rw [two.contents, one.contents, List.append_assoc]
  fields := by rw [two.fields, one.fields]
  otherDins j other := (two.otherDins j other).trans (one.otherDins j other)
  otherContents j other live := by
    rw [two.otherContents j other ((one.live j).mpr live), one.otherContents j other live]
  freeblock := by
    have length : (m.marked.contents i).length + second.length =
        (img.marked.contents i).length + (first ++ second).length := by
      rw [one.contents, List.length_append, List.length_append, Nat.add_assoc]
    have last := Extended.le_blocks m i second
    rw [length, one.blocks] at last
    rw [two.freeblock, one.freeblock, one.blocks, length, Nat.add_assoc,
      ← growth_add (Extended.le_blocks img i first) last]
  freeinode := two.freeinode.trans one.freeinode

/-- Appending `bytes` to inode `i` fails for want of blocks or because the file gets too long. -/
def Overflows (img : Img) (i : Nat) (bytes : List UInt8) (stop : Stop) : Prop :=
  stop = .read ∧ size < img.freeblock +
      growth (img.blocks i) (blocksOf ((img.marked.contents i).length + bytes.length)) ∨
    stop = .maxfile ∧ MAXFILE * BSIZE < (img.marked.contents i).length + bytes.length

theorem Wf.append_meets (wf : img.Wf) (live : img.marked.Live i) (p : List UInt8) :
    Meets (img.iappend i p) (fun img' => Extended img img' i p) (img.Overflows i p) := by
  have length := img.marked.length_contents i
  have whole := wf.iappend_meets live p
  rw [← length] at whole
  refine whole.mono ?_ fun _ bad => bad
  rintro img' ⟨wf', ⟨taken, effect⟩, blocks', inodes'⟩
  refine ⟨wf', ?_, effect.fields, effect.otherDins, effect.otherContents, blocks', inodes'⟩
  rw [effect.contents, splice]
  simp

theorem Overflows.left {stop : Stop} (bad : img.Overflows i first stop) (more : List UInt8) :
    img.Overflows i (first ++ more) stop := by
  have length : (img.marked.contents i).length + (first ++ more).length =
      (img.marked.contents i).length + first.length + more.length := by
    rw [List.length_append, Nat.add_assoc]
  rcases bad with ⟨rfl, full⟩ | ⟨rfl, long⟩
  · refine .inl ⟨rfl, ?_⟩
    rw [length, growth_add (Extended.le_blocks img i first) (blocksOf_mono (Nat.le_add_right _ _))]
    omega
  · exact .inr ⟨rfl, by rw [length]; omega⟩

theorem Extended.overflows (extended : Extended img m i first) {stop : Stop}
    (bad : m.Overflows i second stop) : img.Overflows i (first ++ second) stop := by
  have length : (m.marked.contents i).length + second.length =
      (img.marked.contents i).length + (first ++ second).length := by
    rw [extended.contents, List.length_append, List.length_append, Nat.add_assoc]
  have last := Extended.le_blocks m i second
  rw [length, extended.blocks] at last
  rcases bad with ⟨rfl, full⟩ | ⟨rfl, long⟩
  · refine .inl ⟨rfl, ?_⟩
    rw [length, extended.freeblock, extended.blocks, Nat.add_assoc,
      ← growth_add (Extended.le_blocks img i first) last] at full
    exact full
  · exact .inr ⟨rfl, length ▸ long⟩

/-- **The `read` loop**: whatever the chunks, their concatenation is appended. -/
theorem Wf.appendChunks_meets (wf : img.Wf) (live : img.marked.Live i)
    (chunks : List (List UInt8)) :
    Meets (chunks.foldlM (fun img buf => img.iappend i buf) img)
      (fun img' => Extended img img' i chunks.flatten) (img.Overflows i chunks.flatten) := by
  refine Meets.foldlM (fun done m => Extended img m i done.flatten) (Extended.refl wf i) ?_
  intro done c rest m split extended
  have step := extended.wf.append_meets ((extended.live i).mpr live) c
  refine step.mono ?_ ?_
  · intro m' more
    rw [List.flatten_append, List.flatten_singleton]
    exact extended.trans more
  · intro stop bad
    have failed := (extended.overflows bad).left rest.flatten
    rw [split, List.flatten_append, List.flatten_cons, ← List.append_assoc]
    exact failed

end Extended

end Img

/-! ### The files of the image -/

/-- The content of an input file. -/
def InputFile.bytes (file : InputFile) : List UInt8 := (file.chunks.getD []).flatten

/-- The entries of the root directory. -/
def rootEntries (files : List InputFile) : List Dirent :=
  dirent ROOTINO [46] :: dirent ROOTINO [46, 46] ::
    files.mapIdx fun k file => dirent (k + 2) file.stripped

/-- The blocks of a file of `n` bytes, with its indirect block. -/
def blocksFor (n : Nat) : Nat := growth 0 (blocksOf n)

/-- The blocks in use once `files` are in the image. -/
def usedBlocks (files : List InputFile) : Nat :=
  metablocks + blocksFor (DIRENTSIZE * (files.length + 2)) +
    (files.map fun file => blocksFor file.bytes.length).sum

/-- **The image after the input files `files` were added.** -/
structure Built (files : List InputFile) (img : Img) : Prop where
  wf : img.Wf
  freeinode : img.freeinode = files.length + 2
  freeblock : img.freeblock = usedBlocks files
  rootType : (img.marked.din ROOTINO).type = T_DIR ∧ (img.marked.din ROOTINO).nlink = 1
  root : img.marked.contents ROOTINO = (rootEntries files).flatMap Dirent.encode
  fileType : ∀ k file, files[k]? = some file →
    (img.marked.din (k + 2)).type = T_FILE ∧ (img.marked.din (k + 2)).nlink = 1
  file : ∀ k file, files[k]? = some file → img.marked.contents (k + 2) = file.bytes

theorem length_dirent (inum : Nat) (name : List UInt8) :
    (dirent inum name).encode.length = DIRENTSIZE := Dirent.length_encode (length_strncpy _ _)

theorem length_rootEntries (files : List InputFile) :
    ((rootEntries files).flatMap Dirent.encode).length = DIRENTSIZE * (files.length + 2) := by
  have each : ∀ de ∈ rootEntries files, de.encode.length = DIRENTSIZE := by
    intro de member
    unfold rootEntries at member
    rw [List.mem_cons, List.mem_cons, List.mem_mapIdx] at member
    rcases member with rfl | rfl | ⟨k, inside, rfl⟩ <;> exact length_dirent _ _
  rw [List.length_flatMap, List.map_congr_left each, List.map_const', List.sum_replicate_nat]
  unfold rootEntries
  rw [List.length_cons, List.length_cons, List.length_mapIdx, Nat.mul_comm]

theorem rootEntries_snoc (files : List InputFile) (file : InputFile) :
    (rootEntries (files ++ [file])).flatMap Dirent.encode =
      (rootEntries files).flatMap Dirent.encode ++
      (dirent (files.length + 2) file.stripped).encode := by
  unfold rootEntries
  rw [List.mapIdx_concat]
  simp [List.flatMap_append]

theorem usedBlocks_mono (files more : List InputFile) :
    usedBlocks files ≤ usedBlocks (files ++ more) := by
  have root : blocksFor (DIRENTSIZE * (files.length + 2)) ≤
      blocksFor (DIRENTSIZE * ((files ++ more).length + 2)) := by
    unfold blocksFor
    rw [growth_add (Nat.zero_le _) (blocksOf_mono (Nat.mul_le_mul_left _ (by
      rw [List.length_append]
      omega : files.length + 2 ≤ (files ++ more).length + 2)))]
    exact Nat.le_add_right _ _
  unfold usedBlocks
  rw [List.map_append, List.sum_append]
  omega

/-! ### The empty image -/

theorem load_sbBlock : Superblock.load sbBlock = sb := by
  have entry : ∀ j, sbBlock.word j = if j = 3 then sb.nlog else if j = 2 then sb.ninodes
      else if j = 1 then sb.nblocks else if j = 0 then sb.size else Block.zero.word j := by
    intro j
    unfold sbBlock
    rw [Block.word_setWord (by decide), Block.word_setWord (by decide),
      Block.word_setWord (by decide), Block.word_setWord (by decide)]
  unfold Superblock.load
  rw [entry, entry, entry, entry]
  rfl

theorem blk_blank (b : Nat) : blank.blk b = if b = 1 then sbBlock else Block.zero := by
  show Function.update (fun _ => Block.zero) 1 sbBlock b = _
  rw [Function.update_apply]

theorem readsb_blank : blank.boot.readsb = sb := by
  show Superblock.load (blank.blk 1) = sb
  rw [blk_blank, if_pos rfl, load_sbBlock]

theorem decode_zero : Dinode.decode (List.replicate DINODESIZE 0) = Dinode.zero := by
  apply Dinode.ext <;> try rfl
  funext k
  revert k
  decide

theorem din_blank (i : Nat) : blank.marked.din i = Dinode.zero := by
  show (if i < blank.boot.readsb.ninodes.toNat then blank.boot.dinode i else Dinode.zero) = _
  split
  · have other : IBLOCK i ≠ 1 := (one_lt_IBLOCK i).ne'
    have slot : i % IPB < IPB := Nat.mod_lt _ (by decide)
    have inside : DINODESIZE * (i % IPB) + DINODESIZE ≤ BSIZE := by
      rw [IPB_eq] at *
      rw [DINODESIZE_eq, BSIZE_eq]
      omega
    have block : blank.boot.blk (IBLOCK i) = Block.zero := (blk_blank _).trans (if_neg other)
    unfold Fs.dinode Dinode.load
    rw [block, Block.read_zero inside, decode_zero]
  · rfl

theorem wf_blank : blank.Wf := by
  have dead : ∀ i, ¬ blank.marked.Live i := by
    intro i
    unfold View.Live
    rw [din_blank]
    decide
  have none' : ∀ place, blank.marked.own place = none := fun place =>
    View.own_eq_none.mpr fun live => (dead _ live).elim
  have sb' : blank.marked.sb = sb := readsb_blank
  refine ⟨⟨readsb_blank, rfl, rfl, le_rfl, by decide, ?_⟩, ⟨⟨⟨?_, ?_, ?_⟩, ?_, ?_⟩, ?_, ?_⟩, le_rfl,
    by decide, ?_⟩
  · intro b above
    have : (29 : Nat) ≤ b := above
    rw [blk_blank, if_neg (by omega)]
  · intro place b owns
    rw [none'] at owns
    cases owns
  · intro place other b owns
    rw [none'] at owns
    cases owns
  · intro b area used
    rw [sb'] at area
    have low : metablocks ≤ b := area.1
    have high : b < size - nlog := area.2
    have mark : b < metablocks ∨ size ≤ b := of_decide_eq_true used
    omega
  · intro place b owns
    rw [none'] at owns
    cases owns
  · intro b below
    rw [sb'] at below
    exact decide_eq_true (.inl below)
  · intro i live
    exact (dead i live).elim
  · intro i live
    exact (dead i live).elim
  · intro i
    refine iff_of_false (dead i) ?_
    show ¬ (1 ≤ i ∧ i < 1)
    omega

end Xv6.Mkfs
