/-
**The inode cache, directories and paths of `fs.c`.**

`Kernel` is the file system with the inode cache; a `struct inode *` is a slot of the cache. A call
that cannot go on ends in a `Halt`: a panic, or a sleep (a locked inode, a full log) that only
another process can end. `readi` never changes the size of a directory, so the loops of `dirlookup`,
`dirlink` and `isdirempty` run over the offsets of the entries below that size.
-/

import Xv6.Fs.Inode
import Xv6.Str

namespace Xv6

open Lib

/-- What keeps a call from completing. -/
inductive Halt
  | panic (why : Panic)
  | sleep
  deriving DecidableEq

/-- A call of a layer that only panics. -/
def Halt.lift {α : Type} : Except Panic α → Except Halt α
  | .ok a => .ok a
  | .error why => .error (.panic why)

theorem Halt.lift_eq_ok {α : Type} {x : Except Panic α} {a : α} :
    Halt.lift x = .ok a ↔ x = .ok a := by
  cases x with
  | ok b => rw [lift, Except.ok.injEq, Except.ok.injEq]
  | error why =>
    refine iff_of_false ?_ ?_
    · intro absurdity
      cases absurdity
    · intro absurdity
      cases absurdity

/-- A `struct inode *`: an entry of `icache.inode`. -/
abbrev Slot := Fin NINODE

/-- The slot that `iget` finds first. -/
def rootSlot : Slot := ⟨0, NINODE_pos⟩

/-- The file system and `icache`. -/
structure Kernel where
  fs : Fs
  icache : Slot → Inode

namespace Kernel

/-- The kernel before the first `iget`: no entry of the cache was ever used. -/
def boot (fs : Fs) : Kernel := ⟨fs, fun _ => ⟨0, 0, 0, false, false, .zero⟩⟩

/-- The cache with one entry replaced. -/
def setInode (k : Kernel) (ip : Slot) (node : Inode) : Kernel :=
  { k with icache := Function.update k.icache ip node }

/-- `begin_op`. -/
def beginOp (k : Kernel) : Except Halt Kernel :=
  match k.fs.beginOp with
  | none => .error .sleep
  | some fs => .ok { k with fs }

/-- `end_op`. -/
def endOp (k : Kernel) : Except Halt Kernel := do
  let fs ← Halt.lift k.fs.endOp
  return { k with fs }

/-! ### The inode cache -/

/-- The cached entry of an inode, if there is one. -/
def cached (k : Kernel) (dev inum : Nat) : Option Slot :=
  (List.finRange NINODE).find? fun ip =>
    decide (0 < (k.icache ip).ref ∧ (k.icache ip).dev = dev ∧ (k.icache ip).inum = inum)

/-- The first entry that nobody refers to. -/
def emptySlot (k : Kernel) : Option Slot :=
  (List.finRange NINODE).find? fun ip => decide ((k.icache ip).ref = 0)

/-- `idup`. -/
def idup (k : Kernel) (ip : Slot) : Kernel :=
  k.setInode ip { k.icache ip with ref := (k.icache ip).ref + 1 }

/-- `iget`. -/
def iget (k : Kernel) (dev inum : Nat) : Except Halt (Slot × Kernel) :=
  match k.cached dev inum with
  | some ip => .ok (ip, k.idup ip)
  | none =>
    match k.emptySlot with
    | none => .error (.panic .igetNoInodes)
    | some ip =>
      .ok (ip,
        k.setInode ip { k.icache ip with dev, inum, ref := 1, busy := false, valid := false })

/-- `ilock`. -/
def ilock (k : Kernel) (ip : Slot) : Except Halt Kernel :=
  let node := k.icache ip
  if node.ref < 1 then .error (.panic .ilock)
  else if node.busy then .error .sleep
  else if node.valid then .ok (k.setInode ip { node with busy := true })
  else if (k.fs.dinode node.inum).type = 0 then .error (.panic .ilockNoType)
  else .ok (k.setInode ip { node with busy := true, valid := true, din := k.fs.dinode node.inum })

/-- `iunlock`. -/
def iunlock (k : Kernel) (ip : Slot) : Except Halt Kernel :=
  let node := k.icache ip
  if node.busy = false ∨ node.ref < 1 then .error (.panic .iunlock)
  else .ok (k.setInode ip { node with busy := false })

/-- The part of `iput` that frees the inode: truncate it, and write it back without a type. -/
def ifree (k : Kernel) (ip : Slot) : Except Halt Kernel := do
  let (node, fs) ← Halt.lift (k.fs.itrunc (k.icache ip))
  let node := { node with din := { node.din with type := 0 } }
  let fs ← Halt.lift (fs.iupdate node)
  return { k.setInode ip { node with busy := false, valid := false } with fs }

/-- `ip->ref--`. -/
def unref (k : Kernel) (ip : Slot) : Kernel :=
  k.setInode ip { k.icache ip with ref := (k.icache ip).ref - 1 }

/-- `iput`. -/
def iput (k : Kernel) (ip : Slot) : Except Halt Kernel :=
  let node := k.icache ip
  if node.ref = 1 ∧ node.valid = true ∧ node.din.nlink = 0 then
    if node.busy then .error (.panic .iputBusy)
    else do
      let k ← k.ifree ip
      return k.unref ip
  else .ok (k.unref ip)

/-- `iunlockput`. -/
def iunlockput (k : Kernel) (ip : Slot) : Except Halt Kernel := do
  let k ← k.iunlock ip
  k.iput ip

/-- `ialloc`. -/
def ialloc (k : Kernel) (dev : Nat) (type : Int16) : Except Halt (Slot × Kernel) := do
  let (inum, fs) ← Halt.lift (k.fs.ialloc type)
  { k with fs }.iget dev inum

/-- Fields of a locked inode are assigned and `iupdate` is called. -/
def iupdate (k : Kernel) (ip : Slot) (din : Dinode) : Except Halt Kernel := do
  let node := { k.icache ip with din }
  let fs ← Halt.lift (k.fs.iupdate node)
  return { k.setInode ip node with fs }

/-- `readi` of a locked inode. -/
def readi (k : Kernel) (ip : Slot) (off n : Nat) : Except Halt (Int × List UInt8 × Kernel) := do
  let (r, bytes, node, fs) ← Halt.lift (k.fs.readi (k.icache ip) off n)
  return (r, bytes, { k.setInode ip node with fs })

/-- `writei` of a locked inode. -/
def writei (k : Kernel) (ip : Slot) (src : List UInt8) (off : Nat) :
    Except Halt (Int × Kernel) := do
  let (r, node, fs) ← Halt.lift (k.fs.writei (k.icache ip) src off)
  return (r, { k.setInode ip node with fs })

/-! ### Directories -/

/-- The number of entries that start below `size`. -/
def entriesBelow (size : Nat) : Nat := (size + DIRENTSIZE - 1) / DIRENTSIZE

/-- The offsets of the entries of a directory, from entry `first` on. -/
def entryOffs (k : Kernel) (dp : Slot) (first : Nat) : List Nat :=
  (List.range' first (entriesBelow (k.icache dp).din.size.toNat - first)).map (DIRENTSIZE * ·)

/-- The entry at offset `off` of a directory, read by a function that panics with `why` where there
is none. -/
def readDirent (k : Kernel) (dp : Slot) (why : Panic) (off : Nat) :
    Except Halt (Dirent × Kernel) := do
  let (r, bytes, k) ← k.readi dp off DIRENTSIZE
  if r ≠ DIRENTSIZE then .error (.panic why) else return (Dirent.decode bytes, k)

/-- The loops over the entries of a directory: the first entry that `stop` accepts, with its
offset. -/
def scan (why : Panic) (stop : Dirent → Bool) (dp : Slot) :
    List Nat → Kernel → Except Halt (Option (Dirent × Nat) × Kernel)
  | [], k => .ok (none, k)
  | off :: offs, k => do
    let (de, k) ← k.readDirent dp why off
    if stop de then return (some (de, off), k) else scan why stop dp offs k

/-- Does an entry match a path element? -/
def matchesName (name : List UInt8) (de : Dirent) : Bool :=
  de.inum ≠ 0 && namecmp name de.name == 0

/-- `dirlookup`: the inode and the offset of the entry. -/
def dirlookup (k : Kernel) (dp : Slot) (name : List UInt8) :
    Except Halt (Option (Slot × Nat) × Kernel) :=
  if (k.icache dp).din.type ≠ T_DIR then .error (.panic .dirlookupNotDir)
  else do
    let (found, k) ← scan .dirlinkRead (matchesName name) dp (k.entryOffs dp 0) k
    match found with
    | none => return (none, k)
    | some (de, off) =>
      let (ip, k) ← k.iget (k.icache dp).dev de.inum.toNat
      return (some (ip, off), k)

/-- `dirlink`. -/
def dirlink (k : Kernel) (dp : Slot) (name : List UInt8) (inum : Nat) :
    Except Halt (Int × Kernel) := do
  let (found, k) ← k.dirlookup dp name
  match found with
  | some (ip, _) =>
    let k ← k.iput ip
    return (-1, k)
  | none =>
    let (empty, k) ← scan .dirlinkRead (fun de => de.inum == 0) dp (k.entryOffs dp 0) k
    let off := (empty.map Prod.snd).getD (DIRENTSIZE * entriesBelow (k.icache dp).din.size.toNat)
    let de : Dirent := ⟨UInt16.ofNat inum, strncpy name DIRSIZ⟩
    let (r, k) ← k.writei dp de.encode off
    if r ≠ DIRENTSIZE then .error (.panic .dirlink) else return (0, k)

/-! ### Paths -/

/-- `skipelem`: the next path element, cut to `DIRSIZ` bytes, and the path behind it. -/
def skipelem (path : List UInt8) : Option (List UInt8 × List UInt8) :=
  let path := path.dropWhile (· == 47)
  if path = [] then none
  else some ((path.takeWhile (· != 47)).take DIRSIZ, (path.dropWhile (· != 47)).dropWhile (· == 47))

theorem length_skipelem {path name rest : List UInt8} (some' : skipelem path = some (name, rest)) :
    rest.length < path.length := by
  simp only [skipelem] at some'
  split at some'
  · cases some'
  · next nonempty =>
    obtain ⟨_, rfl⟩ := Prod.mk.inj (Option.some.inj some')
    have first : (path.dropWhile (· == 47)).length ≤ path.length :=
      (List.dropWhile_suffix _).length_le
    have last : (((path.dropWhile (· == 47)).dropWhile (· != 47)).dropWhile (· == 47)).length ≤
        ((path.dropWhile (· == 47)).dropWhile (· != 47)).length :=
        (List.dropWhile_suffix _).length_le
    -- The first byte of the element is no slash, so the element is not empty.
    cases element : path.dropWhile (· == 47) with
    | nil => exact absurd element nonempty
    | cons c tail =>
      have noSlash : (c != 47) = true := by
        have := List.head_dropWhile_not (p := (· == 47)) (l := path) (by rw [element]; simp)
        simp only [element, List.head_cons] at this
        simpa using this
      have shorter : (tail.dropWhile (· != 47)).length ≤ tail.length :=
        (List.dropWhile_suffix _).length_le
      have element' : (c :: tail).dropWhile (· != 47) = tail.dropWhile (· != 47) :=
        List.dropWhile_cons_of_pos noSlash
      rw [element] at first last
      rw [element'] at last ⊢
      rw [List.length_cons] at first
      omega

/-- The loop of `namex`; `parent` is the argument `nameiparent`. The name is that of the last
element taken. -/
def namexLoop (k : Kernel) (ip : Slot) (parent : Bool) (path name : List UInt8) :
    Except Halt (Option (Slot × List UInt8) × Kernel) :=
  match _ : skipelem path with
  | none =>
    if parent then do
      let k ← k.iput ip
      return (none, k)
    else .ok (some (ip, name), k)
  | some (name, rest) => do
    let k ← k.ilock ip
    if (k.icache ip).din.type ≠ T_DIR then
      let k ← k.iunlockput ip
      return (none, k)
    else if parent ∧ rest = [] then
      let k ← k.iunlock ip
      return (some (ip, name), k)
    else
      let (next, k) ← k.dirlookup ip name
      match next with
      | none =>
        let k ← k.iunlockput ip
        return (none, k)
      | some (next, _) =>
        let k ← k.iunlockput ip
        namexLoop k next parent rest name
termination_by path.length
decreasing_by exact length_skipelem (by assumption)

/-- `namex` of a process whose current directory is `cwd`. -/
def namex (k : Kernel) (cwd : Slot) (path : List UInt8) (parent : Bool) :
    Except Halt (Option (Slot × List UInt8) × Kernel) :=
  if path.head? = some 47 then do
    let (ip, k) ← k.iget ROOTDEV ROOTINO
    namexLoop k ip parent path []
  else namexLoop (k.idup cwd) cwd parent path []

/-- `namei`. -/
def namei (k : Kernel) (cwd : Slot) (path : List UInt8) : Except Halt (Option Slot × Kernel) := do
  let (found, k) ← k.namex cwd path false
  return (found.map Prod.fst, k)

/-- `nameiparent`. -/
def nameiparent (k : Kernel) (cwd : Slot) (path : List UInt8) :
    Except Halt (Option (Slot × List UInt8) × Kernel) :=
  k.namex cwd path true

end Kernel

end Xv6
