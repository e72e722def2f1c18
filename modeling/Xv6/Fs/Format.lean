/-
**The on-disk format of `fs.h`.**

The super block, the inode and the directory entry as the structures of the source, and as the bytes
they take in a block. Each structure reads back what was stored, and storing an inode does not touch
the other inodes of its block. `IBLOCK` and `BBLOCK` say where inodes and bitmap bits stand; the
areas are disjoint.
-/

import Xv6.Block

namespace Xv6

open Lib Function

/-! ### The super block and the areas of the disk -/

/-- `struct superblock`. -/
@[ext] structure Superblock where
  size : UInt32
  nblocks : UInt32
  ninodes : UInt32
  nlog : UInt32
  deriving DecidableEq

/-- The super block as the first bytes of a block. -/
def Superblock.load (b : Block) : Superblock := ⟨b.word 0, b.word 1, b.word 2, b.word 3⟩

/-- Block containing inode `i`. -/
def IBLOCK (i : Nat) : Nat := i / IPB + 2

/-- Block containing the bit for block `b`. -/
def BBLOCK (b ninodes : Nat) : Nat := b / BPB + ninodes / IPB + 3

namespace Superblock

/-- The first block behind the bitmap. -/
def dataStart (sb : Superblock) : Nat := sb.ninodes.toNat / IPB + 3 + (sb.size.toNat / BPB + 1)

/-- The first block of the log. -/
def logStart (sb : Superblock) : Nat := sb.size.toNat - sb.nlog.toNat

theorem two_le_dataStart (sb : Superblock) : 2 ≤ sb.dataStart := by
  unfold dataStart
  rw [IPB_eq, BPB_eq]
  omega

theorem IBLOCK_lt_BBLOCK {sb : Superblock} {i : Nat} (inside : i < sb.ninodes.toNat) (b : Nat) :
    IBLOCK i < BBLOCK b sb.ninodes.toNat := by
  unfold IBLOCK BBLOCK
  rw [IPB_eq, BPB_eq]
  omega

theorem BBLOCK_lt_dataStart {sb : Superblock} {b : Nat} (inside : b < sb.size.toNat) :
    BBLOCK b sb.ninodes.toNat < sb.dataStart := by
  unfold BBLOCK dataStart
  rw [IPB_eq, BPB_eq]
  omega

theorem IBLOCK_lt_dataStart {sb : Superblock} {i : Nat} (inside : i < sb.ninodes.toNat) :
    IBLOCK i < sb.dataStart := by
  unfold IBLOCK dataStart
  rw [IPB_eq, BPB_eq]
  omega

end Superblock

theorem one_lt_IBLOCK (i : Nat) : 1 < IBLOCK i := by
  unfold IBLOCK
  rw [IPB_eq]
  omega

theorem one_lt_BBLOCK (b ninodes : Nat) : 1 < BBLOCK b ninodes := by
  unfold BBLOCK
  rw [IPB_eq, BPB_eq]
  omega

/-! ### Inodes -/

/-- `struct dinode`. -/
@[ext] structure Dinode where
  type : Int16
  major : Int16
  minor : Int16
  nlink : Int16
  size : UInt32
  addrs : Fin (NDIRECT + 1) → UInt32

namespace Dinode

/-- The inode of all zeros. -/
def zero : Dinode := ⟨0, 0, 0, 0, 0, fun _ => 0⟩

/-- The bytes of an inode. -/
def encode (d : Dinode) : List UInt8 :=
  le16 d.type.toUInt16 ++ le16 d.major.toUInt16 ++ le16 d.minor.toUInt16 ++
    le16 d.nlink.toUInt16 ++ le32 d.size ++ (List.ofFn d.addrs).flatMap le32

/-- The inode some bytes spell. -/
def decode (bytes : List UInt8) : Dinode where
  type := (ofLe16 (slice bytes 0 2)).toInt16
  major := (ofLe16 (slice bytes 2 2)).toInt16
  minor := (ofLe16 (slice bytes 4 2)).toInt16
  nlink := (ofLe16 (slice bytes 6 2)).toInt16
  size := ofLe32 (slice bytes 8 4)
  addrs := fun i => ofLe32 (slice bytes (12 + 4 * i) 4)

/-- Inode number `slot` of a block. -/
def load (b : Block) (slot : Nat) : Dinode := decode (b.read (DINODESIZE * slot) DINODESIZE)

/-- The block with its inode number `slot` replaced. -/
def store (b : Block) (slot : Nat) (d : Dinode) : Block := b.write (DINODESIZE * slot) d.encode

theorem length_encode (d : Dinode) : d.encode.length = DINODESIZE := by
  have tail : ((List.ofFn d.addrs).flatMap le32).length = (NDIRECT + 1) * 4 := by
    rw [List.length_flatMap, List.map_congr_left (fun x _ => length_le32 x), List.map_const',
      List.sum_replicate_nat, List.length_ofFn]
  unfold encode
  rw [List.length_append, tail]
  rfl

theorem decode_encode (d : Dinode) : decode d.encode = d := by
  apply Dinode.ext
  · show (ofLe16 (le16 d.type.toUInt16)).toInt16 = d.type
    rw [ofLe16_le16, Int16.toInt16_toUInt16]
  · show (ofLe16 (le16 d.major.toUInt16)).toInt16 = d.major
    rw [ofLe16_le16, Int16.toInt16_toUInt16]
  · show (ofLe16 (le16 d.minor.toUInt16)).toInt16 = d.minor
    rw [ofLe16_le16, Int16.toInt16_toUInt16]
  · show (ofLe16 (le16 d.nlink.toUInt16)).toInt16 = d.nlink
    rw [ofLe16_le16, Int16.toInt16_toUInt16]
  · show ofLe32 (le32 d.size) = d.size
    rw [ofLe32_le32]
  · funext i
    have tail := slice_append_right (le16 d.type.toUInt16 ++ le16 d.major.toUInt16 ++
      le16 d.minor.toUInt16 ++ le16 d.nlink.toUInt16 ++ le32 d.size)
      ((List.ofFn d.addrs).flatMap le32) (4 * i) 4
    have inside : i.val < (List.ofFn d.addrs).length := by
      rw [List.length_ofFn]
      exact i.isLt
    have piece := slice_flatMap (fun x _ => length_le32 x) inside
    show ofLe32 (slice d.encode (12 + 4 * i) 4) = d.addrs i
    have whole : slice d.encode (12 + 4 * i) 4 = le32 (d.addrs i) := by
      refine Eq.trans tail (piece.trans ?_)
      rw [List.get_eq_getElem, List.getElem_ofFn]
    rw [whole, ofLe32_le32]

theorem load_store_self {slot : Nat} (inside : slot < IPB) (b : Block) (d : Dinode) :
    load (store b slot d) slot = d := by
  have bound : DINODESIZE * slot + d.encode.length ≤ BSIZE := by
    rw [length_encode]
    unfold IPB DINODESIZE NDIRECT BSIZE at *
    omega
  have reads := Block.read_write_self (b := b) bound
  rw [length_encode] at reads
  unfold load store
  rw [reads, decode_encode]

/-- Storing an inode does not touch the others of its block. -/
theorem load_store_of_ne {slot other : Nat} (apart : other ≠ slot) (b : Block) (d : Dinode) :
    load (store b slot d) other = load b other := by
  unfold load store
  rw [Block.read_write_of_disjoint]
  rw [length_encode]
  rcases lt_or_gt_of_ne apart with before | behind
  · left
    rw [← Nat.mul_succ]
    exact Nat.mul_le_mul_left _ before
  · right
    rw [← Nat.mul_succ]
    exact Nat.mul_le_mul_left _ behind

/-- The block address in slot `k` of the inode itself; slot `NDIRECT` is the indirect block. -/
def addr (d : Dinode) (k : Nat) : Nat :=
  if inside : k < NDIRECT + 1 then (d.addrs ⟨k, inside⟩).toNat else 0

/-- The inode with slot `k` replaced. -/
def setAddr (d : Dinode) (k : Nat) (b : Nat) : Dinode :=
  if inside : k < NDIRECT + 1 then
    { d with addrs := update d.addrs ⟨k, inside⟩ (UInt32.ofNat b) }
  else d

theorem addr_setAddr {d : Dinode} {k b : Nat} (inside : k ≤ NDIRECT) (word : b < 2 ^ 32) (l : Nat) :
    (d.setAddr k b).addr l = if l = k then b else d.addr l := by
  unfold setAddr addr
  rw [dif_pos (Nat.lt_succ_of_le inside)]
  by_cases same : l = k
  · subst same
    rw [dif_pos (Nat.lt_succ_of_le inside), if_pos rfl]
    simp only [update_self]
    rw [UInt32.toNat_ofNat', Nat.mod_eq_of_lt word]
  · rw [if_neg same]
    by_cases small : l < NDIRECT + 1
    · have other : (⟨l, small⟩ : Fin (NDIRECT + 1)) ≠ ⟨k, Nat.lt_succ_of_le inside⟩ :=
        fun equal => same (Fin.mk.inj equal)
      rw [dif_pos small, dif_pos small]
      simp only [update_of_ne other]
    · rw [dif_neg small, dif_neg small]

theorem setAddr_meta (d : Dinode) (k b : Nat) :
    (d.setAddr k b).type = d.type ∧ (d.setAddr k b).major = d.major ∧
      (d.setAddr k b).minor = d.minor ∧ (d.setAddr k b).nlink = d.nlink ∧
      (d.setAddr k b).size = d.size := by
  unfold setAddr
  split <;> exact ⟨rfl, rfl, rfl, rfl, rfl⟩

theorem setAddr_eq (d : Dinode) (k b : Nat) :
    d.setAddr k b = { d with addrs := (d.setAddr k b).addrs } := by
  obtain ⟨type, major, minor, nlink, size⟩ := d.setAddr_meta k b
  exact Dinode.ext type major minor nlink size rfl

end Dinode

/-! ### Directory entries -/

/-- `struct dirent`. -/
@[ext] structure Dirent where
  inum : UInt16
  name : List UInt8
  deriving DecidableEq

namespace Dirent

/-- The bytes of a directory entry. -/
def encode (de : Dirent) : List UInt8 := le16 de.inum ++ de.name

/-- The directory entry some bytes spell. -/
def decode (bytes : List UInt8) : Dirent := ⟨ofLe16 (slice bytes 0 2), slice bytes 2 DIRSIZ⟩

theorem length_encode {de : Dirent} (name : de.name.length = DIRSIZ) :
    de.encode.length = DIRENTSIZE := by
  unfold encode DIRENTSIZE
  rw [List.length_append, length_le16, name]

theorem decode_encode {de : Dirent} (name : de.name.length = DIRSIZ) : decode de.encode = de := by
  apply Dirent.ext
  · show ofLe16 (le16 de.inum) = de.inum
    rw [ofLe16_le16]
  · show slice (le16 de.inum ++ de.name) ((le16 de.inum).length + 0) DIRSIZ = de.name
    rw [slice_append_right, ← name, slice_all]

end Dirent

end Xv6
