/-
**Open files: `struct file` and `filewrite` of `file.c`.**

`filewrite` cuts its bytes into chunks and writes each in a transaction of its own. The model
returns, as history, the sectors that each of these transactions handed to `log_write`; nothing
reads it. A `struct file *` is passed and returned as a value.
-/

import Xv6.Kernel.Basic

namespace Xv6

open Lib

/-- The field `type` of `struct file`. -/
inductive FdType
  | none
  | pipe
  | inode
  deriving DecidableEq

/-- `struct file`. A `struct pipe *` is a number. -/
structure File where
  type : FdType
  ref : Int
  readable : Bool
  writable : Bool
  pipe : Nat
  ip : Slot
  off : UInt32

namespace Kernel

/-- The inode as `ilock` returns it, but for its flags. -/
def loaded (k : Kernel) (ip : Slot) : Inode :=
  if (k.icache ip).valid then k.icache ip
  else { k.icache ip with din := k.fs.dinode (k.icache ip).inum }

/-- One turn of the loop of `filewrite`, with the bytes `src`. -/
def writeRound (k : Kernel) (f : File) (src : List UInt8) : Except Halt (Int × File × Kernel) := do
  let k ← k.beginOp
  let k ← k.ilock f.ip
  let (r, k) ← k.writei f.ip src f.off.toNat
  let f := if 0 < r then { f with off := f.off + UInt32.ofInt r } else f
  let k ← k.iunlock f.ip
  let k ← k.endOp
  return (r, f, k)

/-- The local variable `max` of `filewrite`. -/
def maxWrite : Nat := (LOGSIZE - 1 - 1 - 2) / 2 * 512

/-- The loop of `filewrite` from byte `i` on: the value of `i` behind it, and the sectors of each
turn. -/
def filewriteLoop (k : Kernel) (f : File) (addr : Nat → UInt8) (i n : Nat) :
    Except Halt (Nat × File × Kernel × List (List Nat)) :=
  if i < n then do
    let n1 := min (n - i) maxWrite
    let (r, f, k') ← k.writeRound f ((List.range n1).map fun j => addr (i + j))
    let sectors := k'.fs.wrote.drop k.fs.wrote.length
    if r < 0 then return (i, f, k', [sectors])
    else if r ≠ n1 then .error (.panic .shortFilewrite)
    else do
      let (i, f, k, rest) ← filewriteLoop k' f addr (i + n1) n
      return (i, f, k, sectors :: rest)
  else .ok (i, f, k, [])
termination_by n - i
decreasing_by
  have : maxWrite = 6656 := rfl
  omega

/-- `filewrite`. Pipes are no part of the file system: `pipewrite` says what that function
returns. -/
def filewrite (pipewrite : Nat → (Nat → UInt8) → Int → Except Halt Int) (k : Kernel) (f : File)
    (addr : Nat → UInt8) (n : Int) : Except Halt (Int × File × Kernel × List (List Nat)) :=
  if f.writable = false then .ok (-1, f, k, [])
  else
    match f.type with
    | .pipe => do
      let r ← pipewrite f.pipe addr n
      return (r, f, k, [])
    | .inode => do
      let (i, f, k, rounds) ← k.filewriteLoop f addr 0 n.toNat
      return (if (i : Int) = n then n else -1, f, k, rounds)
    | .none => .error (.panic .filewrite)

/-! ### What the locks do, and what `filewrite` reads -/

section Locks

variable {k k' : Kernel} {ip : Slot}

theorem ilock_eq_ok (done : k.ilock ip = .ok k') :
    k' = k.setInode ip { k.loaded ip with busy := true, valid := true } := by
  unfold ilock at done
  unfold loaded
  simp only at done
  split at done
  · cases done
  split at done
  · cases done
  split at done
  · next valid =>
    cases done
    rw [if_pos valid]
    have same : ({ k.icache ip with busy := true } : Inode) =
        { k.icache ip with busy := true, valid := true } := by
      rw [← valid]
    rw [same]
  split at done
  · cases done
  · next invalid _ =>
    cases done
    rw [if_neg invalid]

theorem iunlock_eq_ok (done : k.iunlock ip = .ok k') :
    k' = k.setInode ip { k.icache ip with busy := false } := by
  unfold iunlock at done
  simp only at done
  split at done
  · cases done
  · cases done
    rfl

end Locks

theorem filewriteLoop_congr {addr addr' : Nat → UInt8} {n : Nat} (same : ∀ j < n, addr j = addr' j)
    (k : Kernel) (f : File) (i : Nat) :
    k.filewriteLoop f addr i n = k.filewriteLoop f addr' i n := by
  induction left : n - i using Nat.strong_induction_on generalizing k f i with
  | h left' ih =>
    rw [filewriteLoop, filewriteLoop]
    by_cases more : i < n
    · rw [if_pos more, if_pos more]
      have chunk : (List.range (min (n - i) maxWrite)).map (fun j => addr (i + j)) =
          (List.range (min (n - i) maxWrite)).map fun j => addr' (i + j) := by
        refine List.map_congr_left fun j inside => same _ ?_
        have := List.mem_range.mp inside
        omega
      have size : maxWrite = 6656 := rfl
      dsimp only
      rw [chunk]
      refine bind_congr fun ⟨r, f', k'⟩ => ?_
      dsimp only
      rw [ih (n - (i + min (n - i) maxWrite)) (by omega) k' f' _ rfl]
    · rw [if_neg more, if_neg more]

theorem filewrite_congr {pipewrite : Nat → (Nat → UInt8) → Int → Except Halt Int}
    {addr addr' : Nat → UInt8} {n : Int} (same : ∀ j < n.toNat, addr j = addr' j)
    (pipes : ∀ id, pipewrite id addr n = pipewrite id addr' n) (k : Kernel) (f : File) :
    k.filewrite pipewrite f addr n = k.filewrite pipewrite f addr' n := by
  rw [filewrite, filewrite, pipes, filewriteLoop_congr same]

end Kernel

end Xv6
