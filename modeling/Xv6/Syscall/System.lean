/-
**Open files and processes, as the system calls on files see them.**

`System` is the file system with the inode cache, the table of open files, the pipes, and of every
process its size, its saved stack pointer, its current directory and its descriptors. Pointers to
open files, inodes and pipes are indices. A system call runs to its end, panics, or sleeps.
-/

import Xv6.Kernel.File
import Xv6.Syscall.Args
import Xv6.Syscall.Pipe

namespace Xv6

open Lib Function

/-- A `struct file *`: an entry of `ftable.file`. -/
abbrev Fslot := Fin NFILE

/-- What the system calls on files use of `struct proc`. -/
structure UserProc where
  sz : BitVec 32
  /-- `tf->esp`. -/
  esp : BitVec 32
  killed : Bool
  cwd : Option Slot
  ofile : Fin NOFILE → Option Fslot

structure System where
  kernel : Kernel
  ftable : Fslot → File
  /-- The pages of pipes. -/
  pipes : Nat → Pipe
  proc : Fin NPROC → UserProc

namespace System

def setFile (y : System) (f : Fslot) (file : File) : System :=
  { y with ftable := update y.ftable f file }

def setPipe (y : System) (id : Nat) (pipe : Pipe) : System :=
  { y with pipes := update y.pipes id pipe }

def setProc (y : System) (p : Fin NPROC) (proc : UserProc) : System :=
  { y with proc := update y.proc p proc }

def setOfile (y : System) (p : Fin NPROC) (fd : Fin NOFILE) (f : Option Fslot) : System :=
  y.setProc p { y.proc p with ofile := update (y.proc p).ofile fd f }

/-! ### `file.c` -/

/-- `filealloc`. -/
def filealloc (y : System) : Option (Fslot × System) :=
  match (List.finRange NFILE).find? fun f => decide ((y.ftable f).ref = 0) with
  | none => none
  | some f => some (f, y.setFile f { y.ftable f with ref := 1 })

/-- `filedup`. -/
def filedup (y : System) (f : Fslot) : Except Halt System :=
  if (y.ftable f).ref < 1 then .error (.panic .filedup)
  else .ok (y.setFile f { y.ftable f with ref := (y.ftable f).ref + 1 })

/-- `pipeclose`, but for freeing the page. -/
def pipeclose (y : System) (id : Nat) (writable : Bool) : System :=
  y.setPipe id (if writable then { y.pipes id with writeopen := false }
    else { y.pipes id with readopen := false })

/-- `fileclose`. -/
def fileclose (y : System) (f : Fslot) : Except Halt System :=
  let ff := y.ftable f
  if ff.ref < 1 then .error (.panic .fileclose)
  else if 0 < ff.ref - 1 then .ok (y.setFile f { ff with ref := ff.ref - 1 })
  else
    let y := y.setFile f { ff with ref := 0, type := .none }
    match ff.type with
    | .pipe => .ok (y.pipeclose ff.pipe ff.writable)
    | .inode => do
      let k ← y.kernel.beginOp
      let k ← k.iput ff.ip
      let k ← k.endOp
      return { y with kernel := k }
    | .none => .ok y

/-- `argfd`; the descriptor is an `int`. -/
def argfd (y : System) (m : Memory) (p : Fin NPROC) (n : BitVec 32) :
    Option (Fin NOFILE × Fslot) := do
  let fd ← argint m (y.proc p).sz (y.proc p).esp n
  if inside : fd.toNat < NOFILE then
    let f ← (y.proc p).ofile ⟨fd.toNat, inside⟩
    return (⟨fd.toNat, inside⟩, f)
  else none

/-- `fdalloc`. -/
def fdalloc (y : System) (p : Fin NPROC) (f : Fslot) : Option (Fin NOFILE × System) :=
  match (List.finRange NOFILE).find? fun fd => ((y.proc p).ofile fd).isNone with
  | none => none
  | some fd => some (fd, y.setOfile p fd (some f))

end System

end Xv6
