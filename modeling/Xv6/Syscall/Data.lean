/-
**The calls on the data of files, beside those on names.**

`FsCall` are the calls on names and holders together with `read`, `write`, `dup` and `exec`. Between
calls every reference is accounted for, all numbers of inodes are in range, and no open file may
write to a directory: `System.Proper`. This does not depend on link counts, which can be wrong, and
every completed call keeps it, if the blocks that the call takes lie before the log.
-/

import Xv6.Kernel.Data
import Xv6.Names.Ranged
import Xv6.Syscall.Buffers
import Xv6.Syscall.Steps

namespace Xv6

open Lib

namespace Kernel

/-- The reads of `exec` from a locked file: `readi` with offsets and counts that are `uint`s. -/
def execReads (k : Kernel) (ip : Slot) (ranges : List (UInt32 × UInt32)) : Except Halt Kernel :=
  ranges.foldlM (fun k range => do
    let (_, _, k) ← k.readi ip range.1.toNat range.2.toNat
    return k) k

/-- What `exec` does with the file. Which ranges it reads before it is done or gives up depends on
the ELF header, on the program headers and on `kalloc`; here they may be any. -/
def execFile (k : Kernel) (cwd : Slot) (path : List UInt8) (ranges : List (UInt32 × UInt32)) :
    Except Halt Kernel := do
  let k ← k.beginOp
  let (found, k) ← k.namei cwd path
  match found with
  | none => k.endOp
  | some ip =>
    let k ← k.ilock ip
    let k ← k.execReads ip ranges
    let k ← k.iunlockput ip
    k.endOp

end Kernel

/-- A call on files. The arguments are as `argint` and `argstr` fetched them; `addr` are the bytes
of the buffer of `write`, and `wakes` is what `piperead` and `pipewrite` find when they wake up. -/
inductive FsCall
  | name (op : NameOp)
  | read (fd n : BitVec 32) (wakes : List (Bool × Pipe))
  | write (fd : BitVec 32) (addr : Nat → UInt8) (n : BitVec 32) (wakes : List (Bool × Pipe))
  | dup (fd : BitVec 32)
  | exec (path : List UInt8) (ranges : List (UInt32 × UInt32))

/-- The call adds an entry with `dirlink`, or clears one. -/
def FsCall.edits : FsCall → Bool
  | .name op => op.edits
  | _ => false

namespace System

/-- The open file of a descriptor that `argfd` is given. -/
def openFile (y : System) (p : Fin NPROC) (fd : BitVec 32) : Option Fslot :=
  if inside : fd.toNat < NOFILE then (y.proc p).ofile ⟨fd.toNat, inside⟩ else none

/-- `sys_dup`. -/
def sysDup (y : System) (p : Fin NPROC) (fd : BitVec 32) : Except Halt (Int × System) :=
  match y.openFile p fd with
  | none => .ok (-1, y)
  | some f =>
    match y.fdalloc p f with
    | none => .ok (-1, y)
    | some (fd, y) => do
      let y ← y.filedup f
      return (fd.val, y)

/-- The call by process `p`, whose current directory is `cwd`. -/
def perform (y : System) (p : Fin NPROC) (cwd : Slot) : FsCall → Except Halt System
  | .name op => y.call p cwd op
  | .read fd n wakes =>
    match y.openFile p fd with
    | none => .ok y
    | some f => do
      let (_, _, y) ← y.fileread p wakes f n
      return y
  | .write fd addr n wakes =>
    match y.openFile p fd with
    | none => .ok y
    | some f => do
      let (_, y) ← y.filewrite p wakes f addr n
      return y
  | .dup fd => do
    let (_, y) ← y.sysDup p fd
    return y
  | .exec path ranges => do
    let k ← y.kernel.execFile cwd path ranges
    return { y with kernel := k }

/-- **One completed call.** -/
def serve (y : System) (e : Fin NPROC × FsCall) : Except Halt System :=
  match (y.proc e.1).cwd with
  | none => .ok y
  | some cwd => y.perform e.1 cwd e.2

/-- The blocks that a call may draw: those by which `write` makes its file grow, and those for
entries. -/
def draws (y : System) (p : Fin NPROC) : FsCall → Nat
  | .name op => op.draws
  | .write fd _ n _ =>
    match y.openFile p fd with
    | none => 0
    | some f =>
      if (y.ftable f).writable = true ∧ (y.ftable f).type = .inode then
        y.kernel.fs.view.writeCost (y.inum (y.ftable f).ip) (y.ftable f).off.toNat n.toInt.toNat
      else 0
  | _ => 0

/-- The blocks that the call may draw lie before the log. -/
def HasSpace (y : System) (e : Fin NPROC × FsCall) : Prop :=
  ∀ b ∈ y.kernel.fs.view.free.take (y.draws e.1 e.2), b < y.kernel.fs.view.sb.logStart

instance (y : System) (e : Fin NPROC × FsCall) : Decidable (y.HasSpace e) :=
  inferInstanceAs (Decidable (∀ b ∈ _, _))

/-- **Between calls.** There are `n` inodes. -/
structure Proper (y : System) (n : Nat) : Prop where
  sound : y.Sound n
  ranged : y.kernel.fs.view.tree.Ranged n
  readonly : ∀ f, (y.ftable f).type = .inode → (y.ftable f).writable = true →
    ¬ y.kernel.fs.view.tree.Dir (y.inum (y.ftable f).ip)

section Proper

variable {y y' : System} {n : Nat} {p : Fin NPROC} {cwd : Slot} {f : Fslot}
    {wakes : List (Bool × Pipe)}

theorem Sound.user (sound : y.Sound n) (inode : (y.ftable f).type = .inode) :
    0 < y.users (y.ftable f).ip := by
  refine users_pos.mpr (.inr ⟨f, uses_pos.mpr ⟨?_, inode, rfl⟩⟩)
  have count := sound.files f
  by_contra none'
  have closed := sound.closed f (by omega)
  rw [inode] at closed
  cases closed

theorem Sound.live {s : Slot} (sound : y.Sound n) (user : 0 < y.users s) :
    y.kernel.fs.view.tree.Live (y.inum s) := sound.within.held s user

theorem Proper.inside (proper : y.Proper n) {s : Slot} (user : 0 < y.users s) : y.inum s < n :=
  proper.ranged.live _ (proper.sound.live user)

/-- **What keeps the rights to write right**: slots in use keep their inodes, and inodes their
types. -/
theorem Proper.carry (proper : y.Proper n) (sound : y'.Sound n)
    (ranged : y'.kernel.fs.view.tree.Ranged n)
    (steady : ∀ s, 0 < y.users s → 0 < y'.users s → y'.inum s = y.inum s) (guards : y.Guards y')
    (types : ∀ i, y.kernel.fs.view.tree.Live i → y'.kernel.fs.view.tree.Live i →
      y'.kernel.fs.view.tree.type i = y.kernel.fs.view.tree.type i) : y'.Proper n := by
  refine ⟨sound, ranged, fun f inode writable => ?_⟩
  rcases guards f inode writable with ⟨inode', writable', ip⟩ | plain
  · have user := sound.user inode
    have user' := proper.sound.user inode'
    rw [ip] at user
    have same := steady _ user' user
    have live := sound.live user
    rw [same] at live
    intro dir
    rw [ip, same] at dir
    exact proper.readonly f inode' writable'
      ((types _ (proper.sound.live user') live).symm.trans dir)
  · exact plain

theorem Proper.stepped {e : Fin NPROC × NameOp} (proper : y.Proper n) (stepped : y.Stepped n e y') :
    y'.Proper n :=
  proper.carry stepped.sound (stepped.step.ranged proper.ranged) stepped.steady stepped.guards
    fun _ live live' => stepped.step.type live live'

/-- The directories behind a call were there before, with the same entries. -/
def DirsKept (y y' : System) : Prop := ∀ d, y'.kernel.fs.view.tree.Dir d →
  y.kernel.fs.view.tree.Dir d ∧ y'.kernel.fs.view.tree.ents d = y.kernel.fs.view.tree.ents d

theorem Proper.quiet (proper : y.Proper n) (mid : y'.Mid y.inum n [] y.kernel.fs.view.tree none)
    (keeps : y.Keeps y') : y'.Proper n ∧ y.DirsKept y' := by
  have nums := mid.ends.within.nums
  have freed := mid.ends.freed
  refine ⟨?_, ?_⟩
  · refine proper.carry mid.settle.1 (proper.ranged.freed freed)
      (fun s _ user => nums s user) keeps.guards ?_
    exact fun i _ live => (freed.kept live).2.1
  · obtain ⟨S, _, tree⟩ := freed
    intro d dir
    rw [tree] at dir ⊢
    obtain ⟨kept, dir'⟩ := Tree.dir_prune.mp dir
    exact ⟨dir', Tree.ents_prune kept⟩

/-! ### Reading -/

/-- Any halt but the panic of a `log_write` outside a transaction. -/
def Unlogged (halt : Halt) : Prop := halt ≠ .panic .logWriteOutsideOfTrans

theorem ilock_unlogged (k : Kernel) (s : Slot) : Meets (k.ilock s) (fun _ => True) Unlogged := by
  unfold Kernel.ilock
  simp only
  split
  · exact nofun
  split
  · exact nofun
  split
  · trivial
  split
  · exact nofun
  · trivial

theorem iunlock_unlogged (k : Kernel) (s : Slot) :
    Meets (k.iunlock s) (fun _ => True) Unlogged := by
  unfold Kernel.iunlock
  simp only
  split
  · exact nofun
  · trivial

theorem read_unlogged (m : Int) (wakes : List (Bool × Pipe)) (killed : Bool) (pipe : Pipe) :
    Meets (pipe.read m wakes killed) (fun _ => True) Unlogged := by
  induction wakes generalizing killed pipe with
  | nil =>
    rw [Pipe.read]
    split
    · split
      · trivial
      · rintro ⟨⟩
    · trivial
  | cons wake wakes ih =>
    rw [Pipe.read]
    split
    · split
      · trivial
      · exact ih _ _
    · trivial

theorem Mid.setPipe {num : Slot → Nat} {refs : List Ref} {t : Tree} {extra : Option Fslot}
    (mid : y.Mid num n refs t extra) (id : Nat) (pipe : Pipe) :
    (y.setPipe id pipe).Mid num n refs t extra :=
  ⟨mid.ends, mid.files, mid.closed⟩

theorem Mid.setOff {num : Slot → Nat} {refs : List Ref} {t : Tree} {g : File}
    (mid : y.Mid num n refs t none) (fields : g = { y.ftable f with off := g.off }) :
    (y.setFile f g).Mid num n refs t none := by
  refine mid.setFile (fun s => ?_) ?_ (fun _ _ => Iff.rfl) fun zero => ?_
  · rw [fields]
    rfl
  · rw [fields]
  · rw [fields] at zero ⊢
    exact mid.closed f zero

theorem Keeps.setOff {g : File} (fields : g = { y.ftable f with off := g.off }) :
    y.Keeps (y.setFile f g) :=
  .setFile fun inode => by
    rw [fields] at inode ⊢
    exact ⟨inode, rfl, rfl⟩

theorem Proper.fileread (proper : y.Proper n) (p : Fin NPROC)
    (wakes : List (Bool × Pipe)) (f : Fslot) (count : BitVec 32) :
    Meets (y.fileread p wakes f count) (fun (_, _, y') => y'.kernel.fs = y.kernel.fs ∧
      y'.Mid y.inum n [] y.kernel.fs.view.tree none ∧ y.Keeps y') Unlogged := by
  have mid := proper.sound.mid
  unfold System.fileread
  simp only
  split
  · exact ⟨rfl, mid, .of_ftable rfl⟩
  · split
    · refine (read_unlogged _ _ _ _).bind ?_
      rintro ⟨r, bytes, pipe⟩ _
      exact ⟨rfl, mid.setPipe _ _, .of_ftable rfl⟩
    · next inode =>
      have user := proper.sound.user inode
      obtain ⟨users, within, back⟩ := mid.ends.within.borrowed user
      refine ((within.ilock (proper.inside user)).faults
        (ilock_unlogged y.kernel (y.ftable f).ip)).bind ?_
      rintro k₁ ⟨calm₁, within₁⟩
      obtain ⟨r, bytes, read⟩ :=
        within₁.readi (r := Ref.load ⟨(y.ftable f).ip, y.inum (y.ftable f).ip, false⟩)
        List.mem_cons_self rfl ⟨(y.ftable f).off.toNat_lt, count.isLt⟩
      rw [show k₁.readi (y.ftable f).ip (y.ftable f).off.toNat count.toNat = .ok (r, bytes, k₁)
        from read, ok_bind]
      dsimp only
      generalize advanced : (if 0 < r then
        { y.ftable f with off := (y.ftable f).off + UInt32.ofInt r } else y.ftable f : File) = g
      have fields : g = { y.ftable f with off := g.off } := by
        rw [← advanced]
        split <;> rfl
      refine ((within₁.iunlock g.ip).faults (iunlock_unlogged k₁ g.ip)).bind ?_
      rintro k₂ ⟨calm₂, within₂⟩
      have fs : k₂.fs = y.kernel.fs := calm₂.fs.trans calm₁.fs
      have ends : k₂.Ends ⟨y.users, y.inum, n⟩ [] y.kernel.fs.view.tree :=
        Kernel.Spells.ends ⟨back within₂ (fs ▸ mid.ends.within.held _ user), by rw [fs]⟩
      exact ⟨fs, (mid.kernel ends).setOff fields, .setOff fields⟩
    · exact nofun

theorem Proper.filewrite (proper : y.Proper n) {addr : Nat → UInt8} {count : BitVec 32}
    (low : (y.ftable f).writable = true → (y.ftable f).type = .inode →
      ∀ b ∈ y.kernel.fs.view.free.take
        (y.kernel.fs.view.writeCost (y.inum (y.ftable f).ip)
        (y.ftable f).off.toNat count.toInt.toNat), b < y.kernel.fs.view.sb.logStart) :
    Meets (y.filewrite p wakes f addr count) (fun (_, y') =>
      y'.Mid y.inum n [] y.kernel.fs.view.tree none ∧ y.Keeps y') fun _ => True := by
  have mid := proper.sound.mid
  -- Whatever the pipe does, the rest of the system ends up so.
  suffices writes : Meets (y.kernel.filewrite (fun id addr m => Prod.fst <$>
      (y.pipes id).write addr m wakes (y.proc p).killed) (y.ftable f) addr count.toInt)
      (fun x => x.2.1 = { y.ftable f with off := x.2.1.off } ∧
        x.2.2.1.Ends ⟨y.users, y.inum, n⟩ [] y.kernel.fs.view.tree) fun _ => True by
    unfold System.filewrite
    refine writes.bind ?_
    rintro ⟨r, g, k, rounds⟩ ⟨fields, ends⟩
    have mid' := (mid.kernel ends).setOff fields
    have keeps : y.Keeps (y.setFile f g) := .setOff fields
    dsimp only
    split
    · refine (Meets.any _).bind ?_
      rintro ⟨_, pipe⟩ _
      exact ⟨mid'.setPipe _ _, keeps⟩
    · exact ⟨mid', keeps⟩
  unfold Kernel.filewrite
  split
  · exact ⟨rfl, mid.ends⟩
  next writable =>
  have writable' : (y.ftable f).writable = true := by simpa using writable
  split
  · refine (Meets.any _).bind ?_
    exact fun _ _ => ⟨rfl, mid.ends⟩
  · next inode =>
    have user := proper.sound.user inode
    have within : y.kernel.Within ⟨y.users, y.inum, n⟩ [] _ :=
      { proper.sound.within with low := low writable' inode }
    have enough : y.kernel.fs.view.writeCost (y.inum (y.ftable f).ip) (y.ftable f).off.toNat
        (count.toInt.toNat - 0) ≤ _ := le_of_eq (by rw [Nat.sub_zero])
    refine (within.filewriteLoop user (proper.inside user)
      (proper.readonly f inode writable') enough).bind ?_
    rintro ⟨i, g, k, rounds⟩ ⟨fields, tree, within'⟩
    exact ⟨fields, Kernel.Spells.ends ⟨within', tree⟩⟩
  · trivial

theorem Proper.sysDup (proper : y.Proper n) (p : Fin NPROC) (fd : BitVec 32) :
    Meets (y.sysDup p fd)
      (fun (_, y') => y'.Mid y.inum n [] y.kernel.fs.view.tree none ∧ y.Keeps y')
      fun _ => True := by
  have mid := proper.sound.mid
  unfold System.sysDup
  split
  · exact ⟨mid, .of_ftable rfl⟩
  · next f _ =>
    cases found : y.fdalloc p f with
    | none => exact ⟨mid, .of_ftable rfl⟩
    | some x =>
      obtain ⟨fd', y₁⟩ := x
      obtain ⟨unused, rfl⟩ := fdalloc_eq found
      simp only
      unfold System.filedup
      by_cases free : ((y.setOfile p fd' (some f)).ftable f).ref < 1
      · rw [if_pos free]
        trivial
      · rw [if_neg free]
        have free' : ¬ (y.ftable f).ref < 1 := free
        -- The reference first, then the descriptor: the two commute.
        have mid₁ : (y.setFile f { y.ftable f with ref := (y.ftable f).ref + 1 }).Mid y.inum n []
            y.kernel.fs.view.tree (some f) := mid.filedup (by omega)
        exact ⟨mid₁.fdalloc unused, .setFile fun inode => ⟨inode, rfl, rfl⟩⟩

theorem Proper.execFile (proper : y.Proper n) (current : (y.proc p).cwd = some cwd)
    (path : List UInt8) (ranges : List (UInt32 × UInt32)) :
    Meets (y.kernel.execFile cwd path ranges)
      (fun k => k.Ends ⟨y.users, y.inum, n⟩ [] y.kernel.fs.view.tree) fun _ => True := by
  unfold Kernel.execFile
  refine proper.sound.within.spells.beginOp.bind fun k₁ spells₁ => ?_
  refine (spells₁.namei proper.ranged (users_cwd current)).bind ?_
  rintro ⟨_, k₂⟩ (⟨rfl, _, spells₂⟩ | ⟨s, i, rfl, _, inside, spells₂⟩)
  · exact spells₂.ends.endOp
  refine (spells₂.ends.ilock inside).bind fun k₃ ends₃ => ?_
  have reads : k₃.execReads s ranges = .ok k₃ := by
    unfold Kernel.execReads
    induction ranges with
    | nil => rfl
    | cons range ranges ih =>
      obtain ⟨r, bytes, read⟩ :=
        ends₃.within.readi (r := Ref.load ⟨s, i, false⟩) List.mem_cons_self rfl
        ⟨range.1.toNat_lt, range.2.toNat_lt⟩
      rw [List.foldlM_cons, show k₃.readi s range.1.toNat range.2.toNat =
        .ok (r, bytes, k₃) from read]
      exact ih
  show Meets (k₃.execReads s ranges >>= _) _ _
  rw [reads, ok_bind]
  exact ends₃.iunlockput.bind fun k₄ ends₄ => ends₄.endOp

/-- **Every call** keeps the system proper. -/
theorem Proper.serve {e : Fin NPROC × FsCall} (proper : y.Proper n) (space : y.HasSpace e) :
    Meets (y.serve e)
      (fun y' => y'.Proper n ∧ (e.2.edits = false → y.DirsKept y')) fun _ => True := by
  obtain ⟨p, call⟩ := e
  unfold System.serve
  cases current : (y.proc p).cwd with
  | none => exact ⟨proper, fun _ d dir => ⟨dir, rfl⟩⟩
  | some cwd =>
    simp only
    -- What is left to show of a call that is none on names.
    have quiet : ∀ {z : System}, z.Mid y.inum n [] y.kernel.fs.view.tree none → y.Keeps z →
        z.Proper n ∧ (FsCall.edits call = false → y.DirsKept z) := by
      intro z mid keeps
      obtain ⟨proper', kept⟩ := proper.quiet mid keeps
      exact ⟨proper', fun _ => kept⟩
    have idle := quiet proper.sound.mid (.of_ftable rfl)
    cases call with
    | name op =>
      have steps := proper.sound.step (e := (p, op)) proper.ranged space
      unfold System.step at steps
      simp only [current] at steps
      refine steps.imp fun y' stepped => ?_
      exact ⟨proper.stepped stepped, fun quiet d dir => stepped.step.dirs quiet dir⟩
    | read fd count wakes =>
      unfold System.perform
      simp only
      split
      · exact idle
      · next f _ =>
        refine (proper.fileread p wakes f count).weaken.bind ?_
        rintro ⟨_, _, y'⟩ ⟨_, mid, keeps⟩
        exact quiet mid keeps
    | write fd addr count wakes =>
      unfold System.perform
      simp only
      cases opened : y.openFile p fd with
      | none => exact idle
      | some f =>
        refine (proper.filewrite (f := f) fun writable inode b member => ?_).bind ?_
        · refine space b ?_
          unfold System.draws
          simp only [opened]
          rw [if_pos ⟨writable, inode⟩]
          exact member
        · rintro ⟨_, y'⟩ ⟨mid, keeps⟩
          exact quiet mid keeps
    | dup fd =>
      refine (proper.sysDup p fd).bind ?_
      rintro ⟨_, y'⟩ ⟨mid, keeps⟩
      exact quiet mid keeps
    | exec path ranges =>
      refine (proper.execFile current path ranges).bind fun k ends => ?_
      exact quiet (proper.sound.mid.kernel ends) (.of_ftable rfl)

end Proper

end System

end Xv6
