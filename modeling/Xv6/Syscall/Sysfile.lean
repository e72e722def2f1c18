/-
**The calls of `sysfile.c` that change names, links and holders.**

`link`, `unlink` and `create` change the name space; `open`, `close`, `chdir`, `fork` and `exit`
change which inodes are held as open files and current directories. The strings are the arguments as
`argstr` fetched them: their bytes up to the NUL. A call whose `argstr` or `argint` fails returns -1
and has done nothing, or `begin_op` and `end_op` alone; such calls are not modelled here. A step of
a run is one call by one process, from its start to its end.
-/

import Xv6.Syscall.System

namespace Xv6

open Lib

namespace Kernel

/-! ### Links -/

/-- The label `bad` of `sys_link`: the count goes down again. -/
def linkBad (k : Kernel) (ip : Slot) : Except Halt (Int × Kernel) := do
  let k ← k.ilock ip
  let k ← k.iupdate ip { (k.icache ip).din with nlink := (k.icache ip).din.nlink - 1 }
  let k ← k.iunlockput ip
  let k ← k.endOp
  return (-1, k)

/-- The part of `sys_link` that adds the entry, behind the count. -/
def linkEntry (k : Kernel) (cwd ip : Slot) (new : List UInt8) : Except Halt (Int × Kernel) := do
  let (parent, k) ← k.nameiparent cwd new
  match parent with
  | none => k.linkBad ip
  | some (dp, name) =>
    let k ← k.ilock dp
    let (r, k) ← if (k.icache dp).dev ≠ (k.icache ip).dev then .ok (-1, k)
      else k.dirlink dp name (k.icache ip).inum
    if r < 0 then
      let k ← k.iunlockput dp
      k.linkBad ip
    else
      let k ← k.iunlockput dp
      let k ← k.iput ip
      let k ← k.endOp
      return (0, k)

/-- `sys_link`. -/
def sysLink (k : Kernel) (cwd : Slot) (old new : List UInt8) : Except Halt (Int × Kernel) := do
  let k ← k.beginOp
  let (found, k) ← k.namei cwd old
  match found with
  | none =>
    let k ← k.endOp
    return (-1, k)
  | some ip =>
    let k ← k.ilock ip
    if (k.icache ip).din.type = T_DIR then
      let k ← k.iunlockput ip
      let k ← k.endOp
      return (-1, k)
    else
      let k ← k.iupdate ip { (k.icache ip).din with nlink := (k.icache ip).din.nlink + 1 }
      let k ← k.iunlock ip
      k.linkEntry cwd ip new

/-- `isdirempty`: the first two entries are those of `.` and `..`. -/
def isdirempty (k : Kernel) (dp : Slot) : Except Halt (Bool × Kernel) := do
  let (found, k) ← scan .isdiremptyReadi (fun de => de.inum != 0) dp (k.entryOffs dp 2) k
  return (found.isNone, k)

/-- The label `bad` of `sys_unlink`. -/
def unlinkBad (k : Kernel) (dp : Slot) : Except Halt (Int × Kernel) := do
  let k ← k.iunlockput dp
  let k ← k.endOp
  return (-1, k)

/-- The part of `sys_unlink` that clears the entry at `off` and takes the links back. -/
def unlinkEntry (k : Kernel) (dp ip : Slot) (off : Nat) : Except Halt (Int × Kernel) := do
  let (r, k) ← k.writei dp (List.replicate DIRENTSIZE 0) off
  if r ≠ DIRENTSIZE then .error (.panic .unlinkWritei)
  else
    let k ← if (k.icache ip).din.type = T_DIR then
        k.iupdate dp { (k.icache dp).din with nlink := (k.icache dp).din.nlink - 1 }
      else .ok k
    let k ← k.iunlockput dp
    let k ← k.iupdate ip { (k.icache ip).din with nlink := (k.icache ip).din.nlink - 1 }
    let k ← k.iunlockput ip
    let k ← k.endOp
    return (0, k)

/-- `sys_unlink`. -/
def sysUnlink (k : Kernel) (cwd : Slot) (path : List UInt8) : Except Halt (Int × Kernel) := do
  let k ← k.beginOp
  let (parent, k) ← k.nameiparent cwd path
  match parent with
  | none =>
    let k ← k.endOp
    return (-1, k)
  | some (dp, name) =>
    let k ← k.ilock dp
    if namecmp name [46] = 0 ∨ namecmp name [46, 46] = 0 then k.unlinkBad dp
    else
      let (found, k) ← k.dirlookup dp name
      match found with
      | none => k.unlinkBad dp
      | some (ip, off) =>
        let k ← k.ilock ip
        if (k.icache ip).din.nlink < 1 then .error (.panic .unlinkNlink)
        else
          let (empty, k) ← if (k.icache ip).din.type = T_DIR then k.isdirempty ip else .ok (true, k)
          if empty then k.unlinkEntry dp ip off
          else
            let k ← k.iunlockput ip
            k.unlinkBad dp

/-! ### `create` -/

/-- The part of `create` that makes the entries of a new directory. -/
def createDots (k : Kernel) (dp ip : Slot) : Except Halt Kernel := do
  let k ← k.iupdate dp { (k.icache dp).din with nlink := (k.icache dp).din.nlink + 1 }
  let (r, k) ← k.dirlink ip [46] (k.icache ip).inum
  if r < 0 then .error (.panic .createDots)
  else
    let (r, k) ← k.dirlink ip [46, 46] (k.icache dp).inum
    if r < 0 then .error (.panic .createDots) else return k

/-- The part of `create` behind the lookup, where there is no entry `name` in `dp`. -/
def createNew (k : Kernel) (dp : Slot) (name : List UInt8) (type major minor : Int16) :
    Except Halt (Slot × Kernel) := do
  let (ip, k) ← k.ialloc (k.icache dp).dev type
  let k ← k.ilock ip
  let k ← k.iupdate ip { (k.icache ip).din with major, minor, nlink := 1 }
  let k ← if type = T_DIR then k.createDots dp ip else .ok k
  let (r, k) ← k.dirlink dp name (k.icache ip).inum
  if r < 0 then .error (.panic .createDirlink)
  else
    let k ← k.iunlockput dp
    return (ip, k)

/-- `create`: the inode, locked. -/
def create (k : Kernel) (cwd : Slot) (path : List UInt8) (type major minor : Int16) :
    Except Halt (Option Slot × Kernel) := do
  let (parent, k) ← k.nameiparent cwd path
  match parent with
  | none => return (none, k)
  | some (dp, name) =>
    let k ← k.ilock dp
    let (found, k) ← k.dirlookup dp name
    match found with
    | some (ip, _) =>
      let k ← k.iunlockput dp
      let k ← k.ilock ip
      if type = T_FILE ∧ (k.icache ip).din.type = T_FILE then return (some ip, k)
      else
        let k ← k.iunlockput ip
        return (none, k)
    | none =>
      let (ip, k) ← k.createNew dp name type major minor
      return (some ip, k)

/-- `sys_mkdir` and `sys_mknod`. -/
def sysCreate (k : Kernel) (cwd : Slot) (path : List UInt8) (type major minor : Int16) :
    Except Halt (Int × Kernel) := do
  let k ← k.beginOp
  let (made, k) ← k.create cwd path type major minor
  match made with
  | none =>
    let k ← k.endOp
    return (-1, k)
  | some ip =>
    let k ← k.iunlockput ip
    let k ← k.endOp
    return (0, k)

/-- `sys_mkdir`. -/
def sysMkdir (k : Kernel) (cwd : Slot) (path : List UInt8) : Except Halt (Int × Kernel) :=
  k.sysCreate cwd path T_DIR 0 0

/-- `sys_mknod`. -/
def sysMknod (k : Kernel) (cwd : Slot) (path : List UInt8) (major minor : Int16) :
    Except Halt (Int × Kernel) :=
  k.sysCreate cwd path T_DEV major minor

/-- The part of `sys_open` that finds the inode: it is returned locked. -/
def openInode (k : Kernel) (cwd : Slot) (path : List UInt8) (omode : BitVec 32) :
    Except Halt (Option Slot × Kernel) :=
  if omode &&& O_CREATE ≠ 0 then k.create cwd path T_FILE 0 0
  else do
    let (found, k) ← k.namei cwd path
    match found with
    | none => return (none, k)
    | some ip =>
      let k ← k.ilock ip
      if (k.icache ip).din.type = T_DIR ∧ omode ≠ O_RDONLY then
        let k ← k.iunlockput ip
        return (none, k)
      else return (some ip, k)

end Kernel

namespace System

/-! ### Open files and current directories -/

/-- The end of `sys_open` where there is no file or no descriptor left. -/
def openBad (y : System) (ip : Slot) : Except Halt (Int × System) := do
  let k ← y.kernel.iunlockput ip
  let k ← k.endOp
  return (-1, { y with kernel := k })

/-- `sys_open`. -/
def sysOpen (y : System) (p : Fin NPROC) (cwd : Slot) (path : List UInt8) (omode : BitVec 32) :
    Except Halt (Int × System) := do
  let k ← y.kernel.beginOp
  let (found, k) ← k.openInode cwd path omode
  match found with
  | none =>
    let k ← k.endOp
    return (-1, { y with kernel := k })
  | some ip =>
    let y := { y with kernel := k }
    match y.filealloc with
    | none => y.openBad ip
    | some (f, y) =>
      match y.fdalloc p f with
      | none =>
        let y ← y.fileclose f
        y.openBad ip
      | some (fd, y) =>
        let k ← y.kernel.iunlock ip
        let k ← k.endOp
        let y := { y with kernel := k }
        let file : File :=
          { y.ftable f with
            type := .inode, ip, off := 0
            readable := omode &&& O_WRONLY == 0
            writable := omode &&& O_WRONLY != 0 || omode &&& O_RDWR != 0 }
        return (fd.val, y.setFile f file)

/-- `sys_chdir`. -/
def sysChdir (y : System) (p : Fin NPROC) (cwd : Slot) (path : List UInt8) :
    Except Halt (Int × System) := do
  let k ← y.kernel.beginOp
  let (found, k) ← k.namei cwd path
  match found with
  | none =>
    let k ← k.endOp
    return (-1, { y with kernel := k })
  | some ip =>
    let k ← k.ilock ip
    if (k.icache ip).din.type ≠ T_DIR then
      let k ← k.iunlockput ip
      let k ← k.endOp
      return (-1, { y with kernel := k })
    else
      let k ← k.iunlock ip
      let k ← k.iput cwd
      let k ← k.endOp
      return (0, { y with kernel := k }.setProc p { y.proc p with cwd := some ip })

/-- `sys_close`. -/
def sysClose (y : System) (p : Fin NPROC) (fd : BitVec 32) : Except Halt (Int × System) :=
  if inside : fd.toNat < NOFILE then
    match (y.proc p).ofile ⟨fd.toNat, inside⟩ with
    | none => .ok (-1, y)
    | some f => do
      let y ← (y.setOfile p ⟨fd.toNat, inside⟩ none).fileclose f
      return (0, y)
  else .ok (-1, y)

/-! ### `fork` and `exit` -/

/-- A process table entry that `allocproc` may give out holds no file and no directory. -/
def Unused (y : System) (np : Fin NPROC) : Prop :=
  (y.proc np).cwd = none ∧ ∀ fd, (y.proc np).ofile fd = none

instance (y : System) (np : Fin NPROC) : Decidable (y.Unused np) :=
  inferInstanceAs (Decidable (_ ∧ _))

/-- One turn of the loop of `fork`. -/
def dupFd (p np : Fin NPROC) (y : System) (fd : Fin NOFILE) : Except Halt System :=
  match (y.proc p).ofile fd with
  | none => .ok y
  | some f => do
    let y ← y.filedup f
    return y.setOfile np fd (some f)

/-- The part of `fork` that copies the descriptors and the current directory to the entry `np` that
`allocproc` chose. -/
def forkFiles (y : System) (p : Fin NPROC) (cwd : Slot) (np : Fin NPROC) : Except Halt System := do
  let y ← (List.finRange NOFILE).foldlM (dupFd p np) y
  let y := { y with kernel := y.kernel.idup cwd }
  return y.setProc np { y.proc np with cwd := some cwd }

/-- One turn of the loop of `exit`. -/
def closeFd (p : Fin NPROC) (y : System) (fd : Fin NOFILE) : Except Halt System :=
  match (y.proc p).ofile fd with
  | none => .ok y
  | some f => do
    let y ← y.fileclose f
    return y.setOfile p fd none

/-- The part of `exit` that closes the files and leaves the current directory. -/
def exitFiles (y : System) (p : Fin NPROC) (cwd : Slot) : Except Halt System :=
  if p.val = 0 then .error (.panic .initExiting)
  else do
    let y ← (List.finRange NOFILE).foldlM (closeFd p) y
    let k ← y.kernel.beginOp
    let k ← k.iput cwd
    let k ← k.endOp
    return { y with kernel := k }.setProc p { y.proc p with cwd := none }

end System

/-! ### Runs -/

/-- A call on names and holders. For `fork`, `np` is the process table entry that `allocproc`
finds. -/
inductive NameOp
  | link (old new : List UInt8)
  | unlink (path : List UInt8)
  | mkdir (path : List UInt8)
  | mknod (path : List UInt8) (major minor : Int16)
  | open (path : List UInt8) (omode : BitVec 32)
  | close (fd : BitVec 32)
  | chdir (path : List UInt8)
  | fork (np : Fin NPROC)
  | exit

namespace System

/-- The call `op` by process `p`, whose current directory is `cwd`. -/
def call (y : System) (p : Fin NPROC) (cwd : Slot) : NameOp → Except Halt System
  | .link old new => do
    let (_, k) ← y.kernel.sysLink cwd old new
    return { y with kernel := k }
  | .unlink path => do
    let (_, k) ← y.kernel.sysUnlink cwd path
    return { y with kernel := k }
  | .mkdir path => do
    let (_, k) ← y.kernel.sysMkdir cwd path
    return { y with kernel := k }
  | .mknod path major minor => do
    let (_, k) ← y.kernel.sysMknod cwd path major minor
    return { y with kernel := k }
  | .open path omode => do
    let (_, y) ← y.sysOpen p cwd path omode
    return y
  | .close fd => do
    let (_, y) ← y.sysClose p fd
    return y
  | .chdir path => do
    let (_, y) ← y.sysChdir p cwd path
    return y
  | .fork np => if y.Unused np then y.forkFiles p cwd np else .ok y
  | .exit => y.exitFiles p cwd

/-- **One completed call.** A process has a current directory from `userinit` or `fork` to
`exit`. -/
def step (y : System) (e : Fin NPROC × NameOp) : Except Halt System :=
  match (y.proc e.1).cwd with
  | none => .ok y
  | some cwd => y.call e.1 cwd e.2

end System

end Xv6
