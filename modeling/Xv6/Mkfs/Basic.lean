/-
**`mkfs.c`: the program that builds the disk image.**

`Img` is the image file together with the counters of the program; the functions carry the names of
the source. `xint` and `xshort` store their argument in the byte order that `Dinode.encode` and
`Block.word` use, so they do not appear. A failed assertion or an `exit(1)` is a `Stop`. An input
file is its name and what successive calls of `read` returned.
-/

import Xv6.Fs.Inode
import Xv6.Str

namespace Xv6.Mkfs

open Lib Function

/-! ### The sizes -/

def nlog : Nat := LOGSIZE

def nblocks : Nat := 995 - LOGSIZE

def ninodes : Nat := 200

def size : Nat := 1024

def bitblocks : Nat := size / (512 * 8) + 1

/-- The value `usedblocks` and `freeblock` start with. -/
def metablocks : Nat := ninodes / IPB + 3 + bitblocks

example : nblocks + metablocks + nlog = size := by decide

/-- The super block. -/
def sb : Superblock :=
  ⟨UInt32.ofNat size, UInt32.ofNat nblocks, UInt32.ofNat ninodes, UInt32.ofNat nlog⟩

/-! ### The image -/

/-- Where the program stops without an image. -/
inductive Stop where
  /-- `assert(rootino == ROOTINO)`. -/
  | rootino
  /-- `assert(index(argv[i], '/') == 0)`. -/
  | slash
  /-- `open` of an input file failed. -/
  | openFile
  /-- `assert(fbn < MAXFILE)`. -/
  | maxfile
  /-- `read` of a sector behind the end of the image failed. -/
  | read
  /-- `assert(used < 512*8)`. -/
  | bitmap
  deriving DecidableEq

/-- The image and the counters. -/
structure Img where
  blk : Nat → Block
  /-- The length of the file in sectors. -/
  sectors : Nat
  freeblock : Nat
  usedblocks : Nat
  freeinode : Nat

namespace Img

/-- `wsect`. -/
def wsect (img : Img) (sec : Nat) (buf : Block) : Img :=
  { img with blk := update img.blk sec buf, sectors := max img.sectors (sec + 1) }

theorem blk_wsect (img : Img) (sec : Nat) (buf : Block) :
    (img.wsect sec buf).blk = update img.blk sec buf := rfl

/-- `rsect`. -/
def rsect (img : Img) (sec : Nat) : Except Stop Block :=
  if sec < img.sectors then .ok (img.blk sec) else .error .read

/-- `i2b`. -/
def i2b (inum : Nat) : Nat := inum / IPB + 2

/-- `winode`. -/
def winode (img : Img) (inum : Nat) (ip : Dinode) : Except Stop Img := do
  let buf ← img.rsect (i2b inum)
  return img.wsect (i2b inum) (Dinode.store buf (inum % IPB) ip)

/-- `rinode`. -/
def rinode (img : Img) (inum : Nat) : Except Stop Dinode := do
  let buf ← img.rsect (i2b inum)
  return Dinode.load buf (inum % IPB)

/-- `ialloc`. -/
def ialloc (img : Img) (type : Int16) : Except Stop (Nat × Img) := do
  let inum := img.freeinode
  let img := { img with freeinode := img.freeinode + 1 }
  let img ← img.winode inum { Dinode.zero with type, nlink := 1, size := 0 }
  return (inum, img)

/-- The bitmap block that `balloc` builds: the first `used` bits. -/
def firstBits (used : Nat) : Block := (List.range used).foldl Block.setBit Block.zero

/-- `balloc`. -/
def balloc (img : Img) (used : Nat) : Except Stop Img :=
  if used < 512 * 8 then .ok (img.wsect (ninodes / IPB + 3) (firstBits used)) else .error .bitmap

/-- `freeblock++`, `usedblocks++`. -/
def take (img : Img) : Img :=
  { img with freeblock := img.freeblock + 1, usedblocks := img.usedblocks + 1 }

/-- The address of a direct block or of the indirect block in `iappend`, allocated if there is
none. -/
def appendAddr (img : Img) (din : Dinode) (k : Nat) : Dinode × Img :=
  if din.addr k = 0 then (din.setAddr k img.freeblock, img.take) else (din, img)

/-- The entry of the indirect block in `iappend`, allocated if there is none. -/
def appendEntry (img : Img) (din : Dinode) (k : Nat) : Except Stop (Nat × Img) := do
  let indirect ← img.rsect (din.addr NDIRECT)
  if indirect.word k = 0 then
    let indirect := indirect.setWord k (UInt32.ofNat img.freeblock)
    return ((indirect.word k).toNat, img.take.wsect (din.addr NDIRECT) indirect)
  else return ((indirect.word k).toNat, img)

/-- The block number `x` of block `fbn` in `iappend`. -/
def appendMap (img : Img) (din : Dinode) (fbn : Nat) : Except Stop (Nat × Dinode × Img) :=
  if fbn < NDIRECT then
    let (din, img) := img.appendAddr din fbn
    .ok (din.addr fbn, din, img)
  else do
    let (din, img) := img.appendAddr din NDIRECT
    let (x, img) ← img.appendEntry din (fbn - NDIRECT)
    return (x, din, img)

/-- The body of the loop of `iappend`: `p` stays inside the block of `off`. -/
def appendBlock (img : Img) (din : Dinode) (p : List UInt8) (off : Nat) :
    Except Stop (Dinode × Img) :=
  if off / 512 < MAXFILE then do
    let (x, din, img) ← img.appendMap din (off / 512)
    let buf ← img.rsect x
    return (din, img.wsect x (buf.write (off - off / 512 * 512) p))
  else .error .maxfile

/-- The loop of `iappend`. -/
def appendLoop (img : Img) (din : Dinode) (p : List UInt8) (off : Nat) :
    Except Stop (Dinode × Img) :=
  if p = [] then .ok (din, img)
  else do
    let n1 := min p.length ((off / 512 + 1) * 512 - off)
    let (din, img) ← img.appendBlock din (p.take n1) off
    appendLoop img din (p.drop n1) (off + n1)
termination_by p.length
decreasing_by
  have some' : 0 < p.length := List.length_pos_iff.mpr (by assumption)
  rw [List.length_drop]
  omega

/-- `iappend`. -/
def iappend (img : Img) (inum : Nat) (p : List UInt8) : Except Stop Img := do
  let din ← img.rinode inum
  let off := din.size.toNat
  let (din, img) ← img.appendLoop din p off
  img.winode inum { din with size := UInt32.ofNat (off + p.length) }

end Img

/-! ### `main` -/

/-- An input file: its name on the command line, and the results of `read`, none if `open` fails. A
name is a C string; a `read` of up to 512 bytes returned some. -/
structure InputFile where
  name : List UInt8
  clean : 0 ∉ name
  chunks : Option (List (List UInt8))
  sized : ∀ cs ∈ chunks, ∀ c ∈ cs, c ≠ [] ∧ c.length ≤ 512

/-- An empty file named `f`. -/
def emptyFile : InputFile := ⟨[102], by decide, some [], by simp⟩

/-- The name without one leading `_`. -/
def InputFile.stripped (file : InputFile) : List UInt8 :=
  if file.name.head? = some 95 then file.name.tail else file.name

/-- A directory entry with the bytes of a name, the rest zeroed. -/
def dirent (inum : Nat) (name : List UInt8) : Dirent := ⟨UInt16.ofNat inum, strncpy name DIRSIZ⟩

/-- One turn of the loop over the arguments. -/
def addFile (rootino : Nat) (img : Img) (file : InputFile) : Except Stop Img :=
  if 47 ∈ file.name then .error .slash
  else match file.chunks with
    | none => .error .openFile
    | some chunks => do
      let (inum, img) ← img.ialloc T_FILE
      let img ← img.iappend rootino (dirent inum file.stripped).encode
      chunks.foldlM (fun img buf => img.iappend inum buf) img

/-- The buffer with the super block. -/
def sbBlock : Block :=
  (((Block.zero.setWord 0 sb.size).setWord 1 sb.nblocks).setWord 2 sb.ninodes).setWord 3 sb.nlog

/-- The image after the sectors were zeroed and the super block written. -/
def blank : Img where
  blk := update (fun _ => Block.zero) 1 sbBlock
  sectors := nblocks + metablocks + nlog
  freeblock := metablocks
  usedblocks := metablocks
  freeinode := 1

/-- The image with the root directory and its entries `.` and `..`. -/
def withRoot : Except Stop (Nat × Img) := do
  let (rootino, img) ← blank.ialloc T_DIR
  if rootino = ROOTINO then
    let img ← img.iappend rootino (dirent rootino [46]).encode
    let img ← img.iappend rootino (dirent rootino [46, 46]).encode
    return (rootino, img)
  else .error .rootino

/-- The end of `main`: the size of the root directory is rounded up, and the bitmap is written. -/
def finish (rootino : Nat) (img : Img) : Except Stop Img := do
  let din ← img.rinode rootino
  let off := din.size.toNat
  let off := (off / BSIZE + 1) * BSIZE
  let img ← img.winode rootino { din with size := UInt32.ofNat off }
  img.balloc img.usedblocks

/-- `main`. -/
def mkfs (files : List InputFile) : Except Stop Img := do
  let (rootino, img) ← withRoot
  let img ← files.foldlM (addFile rootino) img
  finish rootino img

end Xv6.Mkfs
