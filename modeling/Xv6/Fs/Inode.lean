/-
**Blocks and inodes: the functions of `fs.c` below the directory layer.**

`Fs` is the disk as `bread` shows it, the log, and the device table. Every change of a buffer goes
through `Fs.logWrite`, so that the panics of the log are panics of every function here. An in-memory
inode that its caller has locked is passed and returned as a value. The loops of the source are
searches over ranges (`findFree`, `ialloc`), folds (`itrunc`) and recursions on the bytes left
(`readiLoop`, `writeiLoop`).
-/

import Xv6.Fs.Format
import Xv6.Log.Commit

namespace Xv6

open Lib

/-- An entry of `devsw`: the registered functions of a device, if any. They act on the device and
not on the disk. -/
structure Device where
  read : Option (Nat → Int × List UInt8)
  write : Option (List UInt8 → Int)

/-- The file system below the inode cache. -/
structure Fs where
  /-- The contents of each sector, as `bread` returns them. -/
  blk : Nat → Block
  log : Log
  devsw : Nat → Device
  /-- History: the sectors handed to `log_write`, oldest first. Nothing reads it. -/
  wrote : List Nat

/-- `struct inode`. -/
@[ext] structure Inode where
  dev : Nat
  inum : Nat
  ref : Int
  busy : Bool
  valid : Bool
  /-- The copy of the disk inode: `type` to `addrs`. -/
  din : Dinode

/-- The in-memory inode with one block address replaced. -/
def Inode.setAddr (ip : Inode) (k b : Nat) : Inode := { ip with din := ip.din.setAddr k b }

namespace Fs

/-- `readsb`. -/
def readsb (s : Fs) : Superblock := .load (s.blk 1)

/-- `log_write` of the buffer of `sector`, which now holds `data`. -/
def logWrite (s : Fs) (sector : Nat) (data : Block) : Except Panic Fs :=
  match s.log.write (UInt32.ofNat sector) with
  | .error panic => .error panic
  | .ok log =>
    .ok { s with blk := Function.update s.blk sector data, log, wrote := s.wrote ++ [sector] }

/-- One pass of the loop of `begin_op`; `none` means that the caller sleeps. -/
def beginOp (s : Fs) : Option Fs := s.log.beginOp.map fun log => { s with log }

/-- `end_op`. A commit copies the logged blocks through the log blocks; what it does depends on what
`bread` returns and not on which blocks are cached. -/
def endOp (s : Fs) : Except Panic Fs := do
  let (doCommit, log) ← s.log.endOp
  if doCommit then
    let (log, bufs) := log.commit (Bufs.boot s.blk)
    return { s with blk := bufs.view, log := { log with committing := false } }
  else return { s with log }

/-- `bzero`. -/
def bzero (s : Fs) (bno : Nat) : Except Panic Fs := s.logWrite bno Block.zero

/-! ### Blocks -/

/-- The inner loop of `balloc`: the first clear bit of one bitmap block. -/
def scanBits (bp : Block) (b size : Nat) : Option Nat :=
  (List.range (min BPB (size - b))).find? fun bi => !bp.bit bi

/-- The loops of `balloc`: the first bitmap block with a clear bit, and that bit. -/
def findFree (s : Fs) : Option (Nat × Nat) :=
  let sb := s.readsb
  (List.range ((sb.size.toNat + BPB - 1) / BPB)).findSome? fun k =>
    let b := k * BPB
    (scanBits (s.blk (BBLOCK b sb.ninodes.toNat)) b sb.size.toNat).map fun bi => (b, bi)

/-- `balloc`. -/
def balloc (s : Fs) : Except Panic (Nat × Fs) :=
  match s.findFree with
  | none => .error .ballocOutOfBlocks
  | some (b, bi) => do
    let bno := BBLOCK b s.readsb.ninodes.toNat
    let s ← s.logWrite bno ((s.blk bno).setBit bi)
    let s ← s.bzero (b + bi)
    return (b + bi, s)

/-- `bfree`. -/
def bfree (s : Fs) (b : Nat) : Except Panic Fs :=
  let bno := BBLOCK b s.readsb.ninodes.toNat
  let bi := b % BPB
  if (s.blk bno).bit bi = false then .error .freeingFreeBlock
  else s.logWrite bno ((s.blk bno).clearBit bi)

/-! ### Inodes -/

/-- The disk inode of a number. -/
def dinode (s : Fs) (inum : Nat) : Dinode := Dinode.load (s.blk (IBLOCK inum)) (inum % IPB)

/-- A disk inode written to its block. -/
def putDinode (s : Fs) (inum : Nat) (d : Dinode) : Except Panic Fs :=
  s.logWrite (IBLOCK inum) (Dinode.store (s.blk (IBLOCK inum)) (inum % IPB) d)

/-- `ialloc` up to its `iget`: the number of the inode. -/
def ialloc (s : Fs) (type : Int16) : Except Panic (Nat × Fs) :=
  match (List.range' 1 (s.readsb.ninodes.toNat - 1)).find? fun inum =>
    (s.dinode inum).type == 0 with
  | none => .error .iallocNoInodes
  | some inum => do
    let s ← s.putDinode inum { Dinode.zero with type }
    return (inum, s)

/-- `iupdate`. -/
def iupdate (s : Fs) (ip : Inode) : Except Panic Fs := s.putDinode ip.inum ip.din

/-- The first half of `bmap` behind the direct blocks: the indirect block, allocated if there is
none. -/
def indirect (s : Fs) (ip : Inode) : Except Panic (Nat × Inode × Fs) :=
  if ip.din.addr NDIRECT = 0 then do
    let (addr, s) ← s.balloc
    return (addr, ip.setAddr NDIRECT addr, s)
  else .ok (ip.din.addr NDIRECT, ip, s)

/-- The second half: entry `bn` of the indirect block `bp`, allocated if there is none. -/
def entry (s : Fs) (bp bn : Nat) : Except Panic (Nat × Fs) :=
  let addr := ((s.blk bp).word bn).toNat
  if addr = 0 then do
    let (addr, s) ← s.balloc
    let s ← s.logWrite bp ((s.blk bp).setWord bn (UInt32.ofNat addr))
    return (addr, s)
  else .ok (addr, s)

/-- `bmap`: the disk block address of block `bn`, allocated if there is none. -/
def bmap (s : Fs) (ip : Inode) (bn : Nat) : Except Panic (Nat × Inode × Fs) :=
  if bn < NDIRECT then
    if ip.din.addr bn = 0 then do
      let (addr, s) ← s.balloc
      return (addr, ip.setAddr bn addr, s)
    else .ok (ip.din.addr bn, ip, s)
  else if bn - NDIRECT < NINDIRECT then do
    let (bp, ip, s) ← s.indirect ip
    let (addr, s) ← s.entry bp (bn - NDIRECT)
    return (addr, ip, s)
  else .error .bmapOutOfRange

/-- The loop of `itrunc` over the direct blocks. -/
def freeDirect (s : Fs) (ip : Inode) : Except Panic (Inode × Fs) :=
  (List.range NDIRECT).foldlM (fun (ip, s) i =>
    if ip.din.addr i ≠ 0 then do
      let s ← bfree s (ip.din.addr i)
      return (ip.setAddr i 0, s)
    else .ok (ip, s)) (ip, s)

/-- The loop of `itrunc` over the entries of the indirect block `bp`. -/
def freeEntries (s : Fs) (bp : Block) : Except Panic Fs :=
  (List.range NINDIRECT).foldlM (fun s j =>
    if bp.word j ≠ 0 then bfree s (bp.word j).toNat else .ok s) s

/-- The part of `itrunc` behind the direct blocks. -/
def freeIndirect (s : Fs) (ip : Inode) : Except Panic (Inode × Fs) :=
  if ip.din.addr NDIRECT ≠ 0 then do
    let s ← s.freeEntries (s.blk (ip.din.addr NDIRECT))
    let s ← s.bfree (ip.din.addr NDIRECT)
    return (ip.setAddr NDIRECT 0, s)
  else .ok (ip, s)

/-- `itrunc`. -/
def itrunc (s : Fs) (ip : Inode) : Except Panic (Inode × Fs) := do
  let (ip, s) ← s.freeDirect ip
  let (ip, s) ← s.freeIndirect ip
  let ip := { ip with din := { ip.din with size := 0 } }
  let s ← s.iupdate ip
  return (ip, s)

/-! ### Inode content -/

/-- The loop of `readi`: the bytes copied out. -/
def readiLoop (s : Fs) (ip : Inode) (off n : Nat) : Except Panic (List UInt8 × Inode × Fs) :=
  if n = 0 then .ok ([], ip, s)
  else do
    let (b, ip, s) ← s.bmap ip (off / BSIZE)
    let m := min n (BSIZE - off % BSIZE)
    let bytes := (s.blk b).read (off % BSIZE) m
    let (rest, ip, s) ← readiLoop s ip (off + m) (n - m)
    return (bytes ++ rest, ip, s)
termination_by n
decreasing_by
  have : off % BSIZE < BSIZE := Nat.mod_lt _ (by decide)
  omega

/-- `readi`: the result and the bytes stored to `dst`. `off` and `n` are `uint`s. -/
def readi (s : Fs) (ip : Inode) (off n : Nat) : Except Panic (Int × List UInt8 × Inode × Fs) :=
  if ip.din.type = T_DEV then
    if ip.din.major.toInt < 0 ∨ NDEV ≤ ip.din.major.toInt then .ok (-1, [], ip, s)
    else match (s.devsw ip.din.major.toInt.toNat).read with
      | none => .ok (-1, [], ip, s)
      | some read => .ok ((read n).1, (read n).2, ip, s)
  else if off > ip.din.size.toNat ∨ (off + n) % 2 ^ 32 < off then .ok (-1, [], ip, s)
  else do
    let n := if (off + n) % 2 ^ 32 > ip.din.size.toNat then ip.din.size.toNat - off else n
    let (bytes, ip, s) ← s.readiLoop ip off n
    return (n, bytes, ip, s)

/-- The body of the loop of `writei`: `src` stays inside the block of `off`. -/
def writeBlock (s : Fs) (ip : Inode) (src : List UInt8) (off : Nat) :
    Except Panic (Inode × Fs) := do
  let (b, ip, s) ← s.bmap ip (off / BSIZE)
  let s ← s.logWrite b ((s.blk b).write (off % BSIZE) src)
  return (ip, s)

/-- The loop of `writei`. -/
def writeiLoop (s : Fs) (ip : Inode) (src : List UInt8) (off : Nat) : Except Panic (Inode × Fs) :=
  if src = [] then .ok (ip, s)
  else do
    let m := min src.length (BSIZE - off % BSIZE)
    let (ip, s) ← s.writeBlock ip (src.take m) off
    writeiLoop s ip (src.drop m) (off + m)
termination_by src.length
decreasing_by
  have inside : off % BSIZE < BSIZE := Nat.mod_lt _ (by decide)
  have some' : 0 < src.length := List.length_pos_iff.mpr (by assumption)
  rw [List.length_drop]
  omega

/-- `writei` of the `n` bytes `src`. `off` and `n` are `uint`s. -/
def writei (s : Fs) (ip : Inode) (src : List UInt8) (off : Nat) : Except Panic (Int × Inode × Fs) :=
  let n := src.length
  if ip.din.type = T_DEV then
    if ip.din.major.toInt < 0 ∨ NDEV ≤ ip.din.major.toInt then .ok (-1, ip, s)
    else match (s.devsw ip.din.major.toInt.toNat).write with
      | none => .ok (-1, ip, s)
      | some write => .ok (write src, ip, s)
  else if off > ip.din.size.toNat ∨ (off + n) % 2 ^ 32 < off then .ok (-1, ip, s)
  else if (off + n) % 2 ^ 32 > MAXFILE * BSIZE then .ok (-1, ip, s)
  else do
    let (ip, s) ← s.writeiLoop ip src off
    if n > 0 ∧ off + n > ip.din.size.toNat then
      let ip := { ip with din := { ip.din with size := UInt32.ofNat (off + n) } }
      let s ← s.iupdate ip
      return (n, ip, s)
    else return (n, ip, s)

end Fs

end Xv6
