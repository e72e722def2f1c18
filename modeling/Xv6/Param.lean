/-
**The constants of the kernel and its panics.**

`param.h`, `fs.h`, `memlayout.h` and `stat.h`: the sizes of the buffer cache, the log, the inode and
file tables and of the on-disk structures. `Panic` lists the `panic` calls of the modelled files,
each named by its text; a modelled function that reaches one returns it as its error.
-/

import Mathlib.Algebra.Group.Int.Defs
import Mathlib.Algebra.GroupWithZero.Nat
import Mathlib.Tactic.Common

namespace Xv6

/-! ### `param.h` -/

/-- Maximum number of processes. -/
def NPROC : Nat := 64

/-- Open files per process. -/
def NOFILE : Nat := 16

/-- Open files per system. -/
def NFILE : Nat := 100

/-- Maximum number of active inodes. -/
def NINODE : Nat := 50

/-- Maximum major device number. -/
def NDEV : Nat := 10

/-- Device number of the file system root disk. -/
def ROOTDEV : Nat := 1

/-- Maximum number of blocks any file-system operation writes. -/
def MAXOPBLOCKS : Nat := 10

/-- Maximum number of data sectors in the on-disk log. -/
def LOGSIZE : Nat := MAXOPBLOCKS * 3

/-! ### `fs.h` -/

/-- Root inode number. -/
def ROOTINO : Nat := 1

/-- Block size. -/
def BSIZE : Nat := 512

/-- Direct block addresses of an inode. -/
def NDIRECT : Nat := 12

/-- Block addresses in an indirect block. -/
def NINDIRECT : Nat := BSIZE / 4

/-- Maximum number of blocks of a file. -/
def MAXFILE : Nat := NDIRECT + NINDIRECT

/-- `sizeof(struct dinode)`: four shorts, the size and the block addresses. -/
def DINODESIZE : Nat := 4 * 2 + 4 + (NDIRECT + 1) * 4

/-- Inodes per block. -/
def IPB : Nat := BSIZE / DINODESIZE

/-- Bitmap bits per block. -/
def BPB : Nat := BSIZE * 8

/-- Bytes of a file name in a directory entry. -/
def DIRSIZ : Nat := 14

/-- `sizeof(struct dirent)`: the inode number and the name. -/
def DIRENTSIZE : Nat := 2 + DIRSIZ

theorem NPROC_pos : 0 < NPROC := by decide

/-- `initproc`: the entry of the process table that `userinit` finds first. -/
def initproc : Fin NPROC := ⟨0, NPROC_pos⟩

theorem one_lt_NPROC : 1 < NPROC := by decide

theorem NINODE_pos : 0 < NINODE := by decide

theorem BSIZE_eq : BSIZE = 512 := rfl

theorem NDIRECT_eq : NDIRECT = 12 := rfl

theorem NINDIRECT_eq : NINDIRECT = 128 := rfl

theorem MAXFILE_eq : MAXFILE = 140 := rfl

theorem DINODESIZE_eq : DINODESIZE = 64 := rfl

theorem IPB_eq : IPB = 8 := rfl

theorem BPB_eq : BPB = 4096 := rfl

theorem DIRENTSIZE_eq : DIRENTSIZE = 16 := rfl

/-! ### Indices

Numerals of these types are used in definitions; the instances give them one meaning in all
modules. -/

/-- One processor. -/
instance neZeroOne : NeZero 1 := ⟨by decide⟩

/-- Two processors. -/
instance neZeroTwo : NeZero 2 := ⟨by decide⟩

/-- The entries of a table of signal handlers. -/
instance neZeroHandlers : NeZero 257 := ⟨by decide⟩

/-! ### `memlayout.h` and `pipe.c` -/

/-- First kernel virtual address. -/
def KERNBASE : Nat := 0x80000000

/-- Bytes that a pipe holds. -/
def PIPESIZE : Nat := 512

/-! ### `fcntl.h` -/

/-- Open for reading. -/
def O_RDONLY : BitVec 32 := 0x000

/-- Open for writing. -/
def O_WRONLY : BitVec 32 := 0x001

/-- Open for both. -/
def O_RDWR : BitVec 32 := 0x002

/-- Create the file if it is not there. -/
def O_CREATE : BitVec 32 := 0x200

/-! ### `stat.h` -/

/-- Directory. -/
def T_DIR : Int16 := 1

/-- File. -/
def T_FILE : Int16 := 2

/-- Device. -/
def T_DEV : Int16 := 3

/-! ### Panics -/

/-- The places where the modelled code calls `panic`. -/
inductive Panic
  | tooBigATransaction
  | logWriteOutsideOfTrans
  | logCommitting
  | ballocOutOfBlocks
  | freeingFreeBlock
  | iallocNoInodes
  | igetNoInodes
  | ilock
  | ilockNoType
  | iunlock
  | iputBusy
  | bmapOutOfRange
  | dirlookupNotDir
  | dirlinkRead
  | dirlink
  | isdiremptyReadi
  | unlinkNlink
  | unlinkWritei
  | createDots
  | createDirlink
  | filedup
  | fileclose
  | fileread
  | filewrite
  | shortFilewrite
  | initExiting
  deriving DecidableEq, Repr

end Xv6
