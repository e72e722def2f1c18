/-
**`mkfs` and the kernel agree on the format.**

`lookup_file`: on the image of any input files that fit, `dirlookup` in the root directory finds
each file by its name, and `readi` returns its bytes. The kernel may read past the end of what
`mkfs` wrote of the root directory, since its size was rounded up; it never does, because the entry
comes first.
-/

import Xv6.Kernel.Dir
import Xv6.Mkfs.Boot

namespace Xv6

open Lib

/-! ### A cache with room -/

namespace Kernel

variable {k : Kernel} {ip : Slot} {inum : Nat}

theorem iget_new (absent : ∀ jp, 0 < (k.icache jp).ref → (k.icache jp).inum ≠ inum)
    (first : k.emptySlot = some ip) :
    k.iget ROOTDEV inum = .ok (ip, k.setInode ip { k.icache ip with
      dev := ROOTDEV, inum := inum, ref := 1, busy := false, valid := false }) := by
  have none' : k.cached ROOTDEV inum = none := by
    refine List.find?_eq_none.mpr fun jp _ => ?_
    simp only [decide_eq_true_eq]
    exact fun entry => absent jp entry.1 entry.2.2
  unfold iget
  simp only [none', first]

theorem ilock_new {node : Inode} (used : node.ref = 1) (idle : node.busy = false)
    (invalid : node.valid = false) (live : (k.fs.dinode node.inum).type ≠ 0) :
    (k.setInode ip node).ilock ip = .ok (k.setInode ip { node with
      busy := true, valid := true, din := k.fs.dinode node.inum }) := by
  unfold ilock
  simp only [icache_setInode_self, fs_setInode, used, idle, invalid]
  rw [if_neg (by decide), if_neg (by decide), if_neg (by decide), if_neg live]
  unfold setInode
  rw [Function.update_idem]

end Kernel

namespace Mkfs

section Root

variable {files : List InputFile} {built img : Img}

theorem Finished.dinode (holds : Built files built) (finished : Finished built img) {i : Nat}
    (inside : i < ninodes) : img.boot.dinode i = img.boot.view.din i := by
  refine (Fs.view_din_of_lt ?_).symm
  show i < img.boot.readsb.ninodes.toNat
  rw [finished.readsb holds]
  exact inside

theorem Finished.holds (holds : Built files built) (finished : Finished built img) {ip : Inode}
    (inside : ip.inum < ninodes) (live : img.boot.view.Live ip.inum)
    (synced : ip.din = img.boot.view.din ip.inum) :
    img.boot.Holds ip (blocksOf (built.marked.din ip.inum).size.toNat) := by
  have same : img.boot.viewOf ip = img.boot.view := View.setDin_self synced.symm
  refine ⟨?_, ?_, ?_, ?_⟩
  · rw [finished.readsb holds]
    exact inside
  · rw [same]
    exact finished.owned holds
  · rw [same]
    exact live
  · rw [same]
    exact finished.shaped holds live

theorem length_of_mem_rootEntries {de : Dirent} (member : de ∈ rootEntries files) :
    de.name.length = DIRSIZ := by
  unfold rootEntries at member
  rw [List.mem_cons, List.mem_cons, List.mem_mapIdx] at member
  rcases member with rfl | rfl | ⟨k, inside, rfl⟩ <;> exact length_strncpy _ _

theorem Finished.direntAt (holds : Built files built) (finished : Finished built img) {q : Nat}
    {de : Dirent} (entry : (rootEntries files)[q]? = some de) :
    img.boot.view.direntAt ROOTINO (DIRENTSIZE * q) = de := by
  obtain ⟨inside, rfl⟩ := List.getElem?_eq_some_iff.mp entry
  have count : (rootEntries files).length = files.length + 2 := by simp [rootEntries]
  have below : DIRENTSIZE * q + DIRENTSIZE ≤ (built.marked.din ROOTINO).size.toNat := by
    rw [holds.rootSize]
    rw [count] at inside
    rw [DIRENTSIZE_eq]
    omega
  have below' : DIRENTSIZE * q + DIRENTSIZE ≤ (img.boot.view.din ROOTINO).size.toNat := by
    rw [finished.rootSize holds]
    rw [holds.rootSize] at below
    unfold rounded
    rw [BSIZE_eq]
    omega
  have bytes : img.boot.view.byteAt ROOTINO = built.marked.byteAt ROOTINO := by
    funext p
    unfold View.byteAt
    rw [finished.addrs, finished.view]
    rfl
  have piece : slice ((rootEntries files).flatMap Dirent.encode) (DIRENTSIZE * q) DIRENTSIZE =
      ((rootEntries files)[q]).encode :=
    slice_flatMap (fun x member => Dirent.length_encode (length_of_mem_rootEntries member)) inside
  unfold View.direntAt
  rw [View.slice_contents below', bytes, ← View.slice_contents below, holds.root, piece,
    Dirent.decode_encode (length_of_mem_rootEntries (List.getElem_mem inside))]

/-- Entry `q` of the root directory and the name in it. -/
def rootName (files : List InputFile) : Nat → List UInt8
  | 0 => [46]
  | 1 => [46, 46]
  | q + 2 => (files[q]?.map InputFile.stripped).getD []

theorem rootName_file {p : Nat} (inside : p < files.length) :
    rootName files (p + 2) = files[p].stripped := by
  rw [rootName, List.getElem?_eq_getElem inside]
  rfl

theorem getElem?_rootEntries {q : Nat} (inside : q < files.length + 2) :
    (rootEntries files)[q]? = some (dirent (max q 1) (rootName files q)) := by
  match q with
  | 0 => rfl
  | 1 => rfl
  | q + 2 =>
    have below : q < files.length := by omega
    have number : max (q + 2) 1 = q + 2 := by omega
    show (files.mapIdx fun k file => dirent (k + 2) file.stripped)[q]? = _
    rw [List.getElem?_mapIdx, rootName_file below, List.getElem?_eq_getElem below, number]
    rfl

theorem InputFile.clean_stripped (file : InputFile) : 0 ∉ file.stripped := by
  unfold InputFile.stripped
  split
  · exact fun zero => file.clean (List.mem_of_mem_tail zero)
  · exact file.clean

theorem clean_rootName (files : List InputFile) (q : Nat) : 0 ∉ rootName files q := by
  match q with
  | 0 => simp [rootName]
  | 1 => simp [rootName]
  | q + 2 =>
    rw [rootName]
    cases files[q]? with
    | none => exact List.not_mem_nil
    | some file => exact file.clean_stripped

theorem matchesName_dirent {inum : Nat} {name other : List UInt8}
    (number : 0 < inum ∧ inum < 2 ^ 16) (clean : 0 ∉ name) (clean' : 0 ∉ other) :
    Kernel.matchesName name (dirent inum other) = true ↔ name.take DIRSIZ = other.take DIRSIZ := by
  have word : (UInt16.ofNat inum) ≠ 0 := by
    intro zero
    have := congrArg UInt16.toNat zero
    rw [UInt16.toNat_ofNat', Nat.mod_eq_of_lt number.2] at this
    exact number.1.ne' this
  unfold Kernel.matchesName dirent
  rw [Bool.and_eq_true, decide_eq_true_eq, beq_iff_eq, namecmp_eq_zero, strncpy_strncpy,
    strncpy_inj clean clean']
  exact and_iff_right word

theorem rootName_inj (distinct : (files.map fun file => file.stripped.take DIRSIZ).Nodup)
    (proper : ∀ file ∈ files,
      file.stripped.take DIRSIZ ≠ [46] ∧ file.stripped.take DIRSIZ ≠ [46, 46])
    {p q : Nat} (inside : p < files.length) (before : q < p + 2) :
    (rootName files (p + 2)).take DIRSIZ ≠ (rootName files q).take DIRSIZ := by
  rw [rootName_file inside]
  match q with
  | 0 => exact (proper _ (List.getElem_mem inside)).1
  | 1 => exact (proper _ (List.getElem_mem inside)).2
  | q + 2 =>
    have below : q < files.length := by omega
    rw [rootName_file below]
    intro same
    have index := (List.nodup_iff_injective_get.mp distinct)
      (show (files.map fun file => file.stripped.take DIRSIZ).get ⟨p, by simpa using inside⟩ =
        (files.map fun file => file.stripped.take DIRSIZ).get ⟨q, by simpa using below⟩ by
          simpa using same)
    have : p = q := congrArg Fin.val index
    omega

/-! ### Looking up a file -/

def fileSlot : Slot := ⟨1, by decide⟩

/-- The root directory, locked. -/
def rootNode (img : Img) : Inode := ⟨ROOTDEV, ROOTINO, 1, true, true, img.boot.view.din ROOTINO⟩

/-- The kernel that locked the root directory of the image. -/
def rooted (img : Img) : Kernel := (Kernel.boot img.boot).setInode rootSlot (rootNode img)

theorem Finished.rootType (holds : Built files built) (finished : Finished built img) :
    (img.boot.view.din ROOTINO).type = T_DIR := by
  rw [finished.view, View.din_setDin_self, type_roundedRoot]
  exact holds.rootType.1

theorem Finished.open_root (holds : Built files built) (finished : Finished built img) :
    ∃ k, (Kernel.boot img.boot).iget ROOTDEV ROOTINO = .ok (rootSlot, k) ∧
      k.ilock rootSlot = .ok (rooted img) := by
  refine ⟨_, Kernel.iget_new (fun jp used => absurd used (lt_irrefl _)) rfl, ?_⟩
  have din := finished.dinode holds (show ROOTINO < ninodes by decide)
  rw [Kernel.ilock_new rfl rfl rfl]
  · show Except.ok ((Kernel.boot img.boot).setInode rootSlot ⟨ROOTDEV, ROOTINO, 1, true, true,
      img.boot.dinode ROOTINO⟩) = _
    rw [din]
    rfl
  · show (img.boot.dinode ROOTINO).type ≠ 0
    rw [din, finished.rootType holds]
    decide

theorem Finished.scan_root (holds : Built files built) (finished : Finished built img)
    (distinct : (files.map fun file => file.stripped.take DIRSIZ).Nodup) (proper : ∀ file ∈ files,
      file.stripped.take DIRSIZ ≠ [46] ∧ file.stripped.take DIRSIZ ≠ [46, 46])
    {p : Nat} (inside : p < files.length) {name : List UInt8} (clean : 0 ∉ name)
    (named : name.take DIRSIZ = files[p].stripped.take DIRSIZ) {why : Panic} :
    Kernel.scan why (Kernel.matchesName name) rootSlot ((rooted img).entryOffs rootSlot 0)
      (rooted img) =
      .ok (some (dirent (p + 2) files[p].stripped, DIRENTSIZE * (p + 2)), rooted img) := by
  have few : files.length + 2 ≤ 200 := holds.freeinode ▸ holds.wf.inodes
  have root : (rooted img).icache rootSlot = rootNode img := Kernel.icache_setInode_self _ _ _
  have type := finished.rootType holds
  have here := rootName_file inside
  have entry : ∀ q, q < files.length + 2 →
      img.boot.view.direntAt ROOTINO (DIRENTSIZE * q) = dirent (max q 1) (rootName files q) :=
    fun q below => finished.direntAt holds (getElem?_rootEntries below)
  have covered : Fs.Holds (rooted img).fs ((rooted img).icache rootSlot)
      (blocksOf (DIRENTSIZE * (files.length + 2))) := by
    have live : img.boot.view.Live ROOTINO := by
      unfold View.Live
      rw [type]
      decide
    rw [root, ← holds.rootSize]
    exact finished.holds holds (show ROOTINO < ninodes by decide) live rfl
  have readable : ∀ off ∈ (List.range (p + 3)).map (DIRENTSIZE * ·),
      (rooted img).readDirent rootSlot why off =
        .ok (img.boot.view.direntAt ROOTINO off, rooted img) := by
    intro off member
    obtain ⟨q, below, rfl⟩ := List.mem_map.mp member
    rw [List.mem_range] at below
    have last : DIRENTSIZE * q + DIRENTSIZE ≤ DIRENTSIZE * (files.length + 2) := by
      rw [DIRENTSIZE_eq]
      omega
    have small : blocksOf (DIRENTSIZE * (files.length + 2)) * BSIZE < 2 ^ 32 := by
      unfold blocksOf
      rw [DIRENTSIZE_eq, BSIZE_eq]
      omega
    rw [Kernel.readDirent_eq covered ?_ ?_ (last.trans (blocksOf_le.mp le_rfl)) small, root]
    · rw [show (rooted img).fs.viewOf (rootNode img) = img.boot.view from View.setDin_self rfl]
      rfl
    · rw [root]
      exact type ▸ by decide
    · rw [root]
      refine last.trans ?_
      show _ ≤ (img.boot.view.din ROOTINO).size.toNat
      rw [finished.rootSize holds]
      unfold rounded
      rw [BSIZE_eq]
      omega
  have split : ∃ rest, (rooted img).entryOffs rootSlot 0 =
      (List.range (p + 3)).map (DIRENTSIZE * ·) ++ rest := by
    have enough : p + 3 ≤ Kernel.entriesBelow ((rooted img).icache rootSlot).din.size.toNat := by
      rw [root]
      show _ ≤ Kernel.entriesBelow (img.boot.view.din ROOTINO).size.toNat
      rw [finished.rootSize holds]
      unfold Kernel.entriesBelow rounded
      rw [BSIZE_eq, DIRENTSIZE_eq]
      omega
    obtain ⟨more, count⟩ := Nat.exists_eq_add_of_le enough
    unfold Kernel.entryOffs
    rw [count, Nat.sub_zero, ← List.range_eq_range', List.range_add, List.map_append]
    exact ⟨_, rfl⟩
  have found : (List.range (p + 3)).find? (fun q => Kernel.matchesName name
      (img.boot.view.direntAt ROOTINO (DIRENTSIZE * q))) = some (p + 2) := by
    refine List.find?_range_eq_some.mpr ⟨?_, List.mem_range.mpr (by omega), ?_⟩
    · rw [entry _ (by omega), matchesName_dirent (by omega) clean (clean_rootName _ _), here]
      exact named
    · intro q before
      rw [entry _ (by omega), Bool.not_eq_true', ← Bool.not_eq_true,
        matchesName_dirent (by omega) clean (clean_rootName _ _), named, ← here]
      exact rootName_inj distinct proper inside before
  obtain ⟨rest, split⟩ := split
  rw [split, Kernel.scan_append readable, List.map_map, List.find?_map]
  have found' : (List.range (p + 3)).find? ((fun x => Kernel.matchesName name x.1) ∘
      (fun off => (img.boot.view.direntAt ROOTINO off, off)) ∘ fun x => DIRENTSIZE * x) =
        some (p + 2) := found
  rw [found']
  show Except.ok (some (img.boot.view.direntAt ROOTINO (DIRENTSIZE * (p + 2)),
    DIRENTSIZE * (p + 2)), rooted img) = _
  rw [entry _ (by omega), here, max_eq_left (by omega)]

/-- The inode of file `p`, locked. -/
def fileNode (img : Img) (p : Nat) : Inode :=
  ⟨ROOTDEV, p + 2, 1, true, true, img.boot.view.din (p + 2)⟩

theorem Finished.dirlookup_file (holds : Built files built) (finished : Finished built img)
    (distinct : (files.map fun file => file.stripped.take DIRSIZ).Nodup) (proper : ∀ file ∈ files,
      file.stripped.take DIRSIZ ≠ [46] ∧ file.stripped.take DIRSIZ ≠ [46, 46])
    {p : Nat} (inside : p < files.length) {name : List UInt8} (clean : 0 ∉ name)
    (named : name.take DIRSIZ = files[p].stripped.take DIRSIZ) :
    ∃ k, (rooted img).dirlookup rootSlot name =
        .ok (some (fileSlot, DIRENTSIZE * (p + 2)), k) ∧
      k.ilock fileSlot = .ok ((rooted img).setInode fileSlot (fileNode img p)) := by
  have few : files.length + 2 ≤ ninodes := holds.freeinode ▸ holds.wf.inodes
  have number : (dirent (p + 2) files[p].stripped).inum.toNat = p + 2 := by
    have : ninodes = 200 := rfl
    show (UInt16.ofNat (p + 2)).toNat = p + 2
    rw [UInt16.toNat_ofNat', Nat.mod_eq_of_lt (by omega)]
  have others : ∀ jp, 0 < ((rooted img).icache jp).ref → ((rooted img).icache jp).inum ≠ p + 2 := by
    intro jp used
    by_cases same : jp = rootSlot
    · subst same
      exact (Nat.succ_succ_ne_one p).symm
    · rw [rooted, Kernel.icache_setInode_of_ne same] at used
      exact absurd used (lt_irrefl _)
  have din := finished.dinode holds (show p + 2 < ninodes by omega)
  have taken := Kernel.iget_new others (show (rooted img).emptySlot = some fileSlot from rfl)
  refine ⟨(rooted img).setInode fileSlot { (rooted img).icache fileSlot with
    dev := ROOTDEV, inum := p + 2, ref := 1, busy := false, valid := false }, ?_, ?_⟩
  · have dir : ((rooted img).icache rootSlot).din.type = T_DIR := finished.rootType holds
    unfold Kernel.dirlookup
    rw [if_neg (not_not.mpr dir), finished.scan_root holds distinct proper inside clean named]
    simp only [Lib.ok_bind]
    rw [number, show ((rooted img).icache rootSlot).dev = ROOTDEV from rfl, taken]
    rfl
  · rw [Kernel.ilock_new rfl rfl rfl]
    · show Except.ok ((rooted img).setInode fileSlot ⟨ROOTDEV, p + 2, 1, true, true,
        img.boot.dinode (p + 2)⟩) = _
      rw [din]
      rfl
    · show (img.boot.dinode (p + 2)).type ≠ 0
      rw [din, (finished.file holds (List.getElem?_eq_getElem inside)).1]
      decide

theorem Finished.readi_file (holds : Built files built) (finished : Finished built img) {p : Nat}
    (inside : p < files.length) (k : Kernel) (disk : k.fs = img.boot) :
    (k.setInode fileSlot (fileNode img p)).readi fileSlot 0 (files[p].bytes.length) =
      .ok ((files[p].bytes.length : Int), files[p].bytes,
      k.setInode fileSlot (fileNode img p)) := by
  have few : files.length + 2 ≤ ninodes := holds.freeinode ▸ holds.wf.inodes
  obtain ⟨type, _, bytes⟩ := finished.file holds (List.getElem?_eq_getElem inside)
  have size : (fileNode img p).din.size.toNat = files[p].bytes.length := by
    rw [← bytes, View.length_contents]
    rfl
  have live : img.boot.view.Live (p + 2) := by
    unfold View.Live
    rw [type]
    decide
  have other : p + 2 ≠ ROOTINO := Nat.succ_succ_ne_one p
  have covered := finished.holds holds (show (fileNode img p).inum < ninodes from by
    show p + 2 < ninodes
    omega) live rfl
  have blocks : (built.marked.din (p + 2)).size.toNat = files[p].bytes.length := by
    rw [← size, ← finished.din other]
    rfl
  have short := holds.wf.wellFormed.small (p + 2) ((finished.live _).mp live)
  rw [blocks, MAXFILE_eq, BSIZE_eq] at short
  have read := covered.readi_eq (n := files[p].bytes.length)
    (show (fileNode img p).din.type ≠ T_DEV from type ▸ by decide) (Nat.zero_le _) (by omega) (by
      show 0 + min _ (_ - 0) ≤ blocksOf (built.marked.din (p + 2)).size.toNat * BSIZE
      rw [blocks, size, Nat.sub_zero, Nat.min_self, Nat.zero_add]
      exact blocksOf_le.mp le_rfl)
  have whole : slice ((img.boot.viewOf (fileNode img p)).contents (p + 2)) 0
      files[p].bytes.length = files[p].bytes := by
    rw [show img.boot.viewOf (fileNode img p) = img.boot.view from View.setDin_self rfl, bytes,
      slice_all]
  rw [size, Nat.sub_zero, Nat.min_self, show (fileNode img p).inum = p + 2 from rfl, whole] at read
  refine Kernel.readi_unchanged ?_
  rw [Kernel.icache_setInode_self, Kernel.fs_setInode, disk]
  exact read

end Root

/-- **Every file is found under its name with its bytes.** For all input files that fit in the image
before the log, with names that differ, after a leading `_` and all but `DIRSIZ` bytes were dropped,
from each other and from `.` and `..`: `mkfs` writes an image, and the kernel that ran `initlog` on
it and opens its root directory finds each file by any name equal to it in the first `DIRSIZ` bytes,
as a file with one link whose bytes are those that `read` returned to `mkfs`, in whatever pieces. -/
theorem lookup_file {files : List InputFile} (few : files.length + 1 < ninodes)
    (fits : usedBlocks files ≤ size - nlog)
    (readable : ∀ file ∈ files, 47 ∉ file.name ∧ file.chunks ≠ none ∧
      file.bytes.length ≤ MAXFILE * BSIZE)
    (distinct : (files.map fun file => file.stripped.take DIRSIZ).Nodup) (proper : ∀ file ∈ files,
      file.stripped.take DIRSIZ ≠ [46] ∧ file.stripped.take DIRSIZ ≠ [46, 46]) :
    ∃ img s dp k₀ k, mkfs files = .ok img ∧ img.initlog = some s ∧
      (Kernel.boot s).iget ROOTDEV ROOTINO = .ok (dp, k₀) ∧ k₀.ilock dp = .ok k ∧
      ∀ file ∈ files, ∀ name, 0 ∉ name → name.take DIRSIZ = file.stripped.take DIRSIZ →
        ∃ ip off k₁ k₂, k.dirlookup dp name = .ok (some (ip, off), k₁) ∧ k₁.ilock ip = .ok k₂ ∧
          (k₂.icache ip).din.type = T_FILE ∧ (k₂.icache ip).din.nlink = 1 ∧
          (k₂.icache ip).din.size.toNat = file.bytes.length ∧
          k₂.readi ip 0 file.bytes.length = .ok ((file.bytes.length : Int), file.bytes, k₂) := by
  obtain ⟨img, made, built, holds, finished⟩ :=
    ((mkfs_meets few).mono (fun _ good => good) (by
      rintro stop (⟨_, file, member, slash⟩ | ⟨_, file, member, closed⟩ | ⟨_, full⟩ |
        ⟨_, file, member, long⟩)
      · exact (readable file member).1 slash
      · exact (readable file member).2.1 closed
      · exact absurd (fits.trans (Nat.sub_le _ _)) (by omega)
      · exact absurd (readable file member).2.2 (not_le.mpr long))).exists_ok
  obtain ⟨k₀, got, locked⟩ := finished.open_root holds
  refine ⟨img, _, rootSlot, k₀, rooted img, made, finished.initlog holds fits, got, locked, ?_⟩
  intro file member name clean named
  obtain ⟨p, inside, rfl⟩ := List.mem_iff_getElem.mp member
  obtain ⟨k₁, found, locked'⟩ := finished.dirlookup_file holds distinct proper inside clean named
  obtain ⟨type, nlink, bytes⟩ := finished.file holds (List.getElem?_eq_getElem inside)
  refine ⟨fileSlot, _, k₁, _, found, locked', type, nlink, ?_,
    finished.readi_file holds inside (rooted img) rfl⟩
  rw [← bytes, View.length_contents]
  rfl

/-- A file named `_hello` whose five bytes came in two pieces. -/
def hello : InputFile :=
  ⟨[95, 104, 101, 108, 108, 111], by decide, some [[1, 2, 3], [4, 5]], by simp⟩

/-- The image of one file: the kernel finds it as `hello`, without the `_`. -/
theorem lookup_hello : ∃ img s dp k₀ k, mkfs [hello] = .ok img ∧ img.initlog = some s ∧
    (Kernel.boot s).iget ROOTDEV ROOTINO = .ok (dp, k₀) ∧ k₀.ilock dp = .ok k ∧
    ∃ ip off k₁ k₂, k.dirlookup dp [104, 101, 108, 108, 111] = .ok (some (ip, off), k₁) ∧
      k₁.ilock ip = .ok k₂ ∧ k₂.readi ip 0 5 = .ok (5, [1, 2, 3, 4, 5], k₂) := by
  obtain ⟨img, s, dp, k₀, k, made, booted, got, locked, finds⟩ :=
    lookup_file (show [hello].length + 1 < ninodes by decide) (by decide) (by decide) (by decide)
      (by decide)
  obtain ⟨ip, off, k₁, k₂, found, locked', _, _, _, read⟩ :=
    finds hello List.mem_cons_self [104, 101, 108, 108, 111] (by decide) (by decide)
  exact ⟨img, s, dp, k₀, k, made, booted, got, locked, ip, off, k₁, k₂, found, locked', read⟩

end Mkfs

end Xv6
