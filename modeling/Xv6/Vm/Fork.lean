/-
**`fork` with its memory.**

`Machine` is the process table of `proc.c` together with the memory, the open files and the current
directory of every process, physical memory, and the reference counts of the file table and of the
inode cache. `fork` is `allocproc`, which takes a page for the kernel stack, `copyuvm`, and then the
copy of the rest.
-/

import Xv6.Proc.Table
import Xv6.Signal.Deliver
import Xv6.Str
import Xv6.Vm.Copy

namespace Xv6.Vm

open Lib
open Function (update update_self update_of_ne update_apply)

/-- What `struct proc` has besides the fields of `Proc`, but for its `context`. A null pointer is
`none`. -/
structure Space where
  kstack : Option Page
  pgdir : Option Page
  sz : Nat
  /-- The trap frame, which lies on the kernel stack. -/
  tf : TrapFrame
  ofile : Fin NOFILE → Option (Fin NFILE)
  cwd : Fin NINODE
  name : List UInt8

/-- The processes, physical memory, and the reference counts. -/
structure Machine (ι : Type) where
  table : Ptable ι
  space : Pslot → Space
  phys : Phys
  /-- `ftable.file[f].ref` -/
  fref : Fin NFILE → Int
  /-- `icache.inode[ip].ref` -/
  iref : Fin NINODE → Int

/-- What ends a call. -/
inductive ForkStop
  | fault (f : Fault)
  /-- `panic("filedup")` -/
  | filedup
  deriving DecidableEq, Repr

/-! ### The kernel stack -/

section

variable {K : Layout} {s phys phys' : Phys} {kstack : Page}

theorem kfree_kstack (pool : Pool K s) (listed : s.free = kstack :: s.taken.free)
    (fewer : ∀ q ∈ phys.free, q ∈ s.taken.free) (pool' : Pool K phys) :
    ∃ phys', phys.kfree K kstack = .ok phys' ∧ Freed K phys phys' (· = kstack) := by
  obtain ⟨_, others, valid⟩ := pool.head listed
  exact kfree_ok pool' valid fun mem => others (fewer _ mem)

theorem Restored.withStack (restored : Restored K s.taken phys)
    (listed : s.free = kstack :: s.taken.free) (freed : Freed K phys phys' (· = kstack)) :
    Restored K s phys' := by
  refine ⟨fun q => ?_, fun q used => ?_, freed.deny.trans restored.deny, freed.pool⟩
  · rw [freed.free, restored.free, listed, List.mem_cons, or_comm]
  · rw [listed, List.mem_cons, not_or] at used
    rw [freed.kept q used.1, restored.kept q used.2]
    rfl

theorem Lost.withStack (lost : Lost K s.taken phys) (pool : Pool K s)
    (listed : s.free = kstack :: s.taken.free) (freed : Freed K phys phys' (· = kstack)) :
    ∃ q ∈ s.free, q ∉ phys'.free := by
  obtain ⟨_, others, _⟩ := pool.head listed
  obtain ⟨q, was, gone⟩ := lost.lost
  refine ⟨q, listed ▸ List.mem_cons_of_mem kstack was, fun mem => ?_⟩
  rcases (freed.free q).1 mem with still | rfl
  · exact gone still
  · exact others was

end

namespace Machine

variable {ι : Type}

/-- The rest of one process is replaced. -/
def setSpace (y : Machine ι) (i : Pslot) (space : Space) : Machine ι :=
  { y with space := update y.space i space }

/-- `filedup` -/
def filedup (y : Machine ι) (f : Fin NFILE) : Except ForkStop (Machine ι) :=
  if y.fref f < 1 then .error .filedup else .ok { y with fref := update y.fref f (y.fref f + 1) }

/-- `idup` -/
def idup (y : Machine ι) (ip : Fin NINODE) : Machine ι :=
  { y with iref := update y.iref ip (y.iref ip + 1) }

/-- One turn of the loop over the descriptors. -/
def dupFd (i np : Pslot) (y : Machine ι) (fd : Fin NOFILE) : Except ForkStop (Machine ι) :=
  match (y.space i).ofile fd with
  | none => .ok y
  | some f => do
    let y ← y.filedup f
    return y.setSpace np { y.space np with ofile := update (y.space np).ofile fd (some f) }

/-- An outcome of `vm.c`. -/
def ofFault {α : Type} : Except Fault α → Except ForkStop α
  | .ok a => .ok a
  | .error f => .error (.fault f)

/-- The entry `np` is given up. -/
def forkFail (y : Machine ι) (i np : Pslot) (phys : Phys) (space : Space) : Machine ι :=
  { y.setSpace np space with table := y.table.forkFail i np, phys }

/-- The entry `np` gets its kernel stack. -/
def withStack (y : Machine ι) (np : Pslot) (phys : Phys) (kstack : Page) : Machine ι :=
  { y.setSpace np { y.space np with kstack := some kstack } with phys }

/-- `allocproc`: the entry, or `none` where the source returns 0. -/
def allocproc (y : Machine ι) (i : Pslot) : Machine ι × Option Pslot :=
  match y.table.unusedProc with
  | none => (y, none)
  | some np =>
    let y := { y with table := y.table.fork i }
    match y.phys.kalloc with
    | (phys, none) => (y.forkFail i np phys { y.space np with kstack := none }, none)
    | (phys, some kstack) => (y.withStack np phys kstack, some np)

/-- The child gets the memory, the size and the registers of its parent, with which `fork` returns 0
in it. -/
def inherit (y : Machine ι) (i np : Pslot) (pgdir : Page) : Machine ι :=
  { y.setSpace np { y.space np with
      pgdir := some pgdir
      sz := (y.space i).sz
      tf := { (y.space i).tf with eax := 0 } } with
    table := y.table.forkCopy i np }

/-- The child gets the current directory and the name, and can run. -/
def launch (y : Machine ι) (i np : Pslot) : Machine ι :=
  { (y.idup (y.space i).cwd).setSpace np { y.space np with
      cwd := (y.space i).cwd
      name := safestrcpy (y.space np).name (y.space i).name 16 } with
    table := y.table.forkReturn i np }

/-- What `fork` does once the memory is copied to `pgdir`. -/
def forkRest (y : Machine ι) (i np : Pslot) (pgdir : Page) : Except ForkStop (Machine ι × Int) := do
  let y ← (List.finRange NOFILE).foldlM (dupFd i np) (y.inherit i np pgdir)
  return (y.launch i np, (y.table.proc np).pid.toInt)

/-- What `fork` does once it has an entry. -/
def forkCopy (K : Layout) (y : Machine ι) (i np : Pslot) (pgdir : Page) :
    Except ForkStop (Machine ι × Int) := do
  match ← ofFault (y.phys.copyuvm K pgdir (y.space i).sz) with
  | (phys, none) =>
    -- the kernel stack is the one that allocproc took
    let phys ← ofFault (phys.kfree K ((y.space np).kstack.getD 0))
    return (y.forkFail i np phys { y.space np with pgdir := none, kstack := none }, -1)
  | (phys, some d) => forkRest { y with phys } i np d

/-- `fork` by process `i`, whose directory is `pgdir`. -/
def fork (K : Layout) (y : Machine ι) (i : Pslot) (pgdir : Page) :
    Except ForkStop (Machine ι × Int) :=
  match y.allocproc i with
  | (y, none) => .ok (y, -1)
  | (y, some np) => y.forkCopy K i np pgdir

/-! ### What a failed call leaves -/

/-- **Nothing leaks**: the free pages, every entry but the one `allocproc` looks at, the reference
counts and the parent's memory are as before. -/
structure Unleaked (y y' : Machine ι) (pgdir : Page) : Prop where
  free : ∀ q, q ∈ y'.phys.free ↔ q ∈ y.phys.free
  slots : ∀ j, y.table.unusedProc ≠ some j → y'.table.proc j = y.table.proc j ∧
    y'.space j = y.space j
  files : y'.fref = y.fref
  inodes : y'.iref = y.iref
  mappings : ∀ v, entry y'.phys.mem pgdir v = entry y.phys.mem pgdir v
  parent : ∀ a < KERNBASE, look y'.phys pgdir a = look y.phys pgdir a

/-- A process in user code that may call `fork`, with directory `pgdir`. -/
structure Forkable (K : Layout) (y : Machine ι) (i : Pslot) (pgdir : Page) : Prop where
  used : (y.table.proc i).state ≠ .UNUSED
  idle : (y.table.proc i).task = .user
  files : ∀ fd f, (y.space i).ofile fd = some f → 1 ≤ y.fref f
  small : (y.space i).sz ≤ KERNBASE
  there : ∀ v, v * PGSIZE < (y.space i).sz → present (entry y.phys.mem pgdir v) = true
  inUse : InUse y.phys pgdir
  pool : Pool K y.phys

variable {K : Layout} {y y' : Machine ι} {i np : Pslot} {pgdir : Page}

theorem Forkable.other (forkable : Forkable K y i pgdir) (found : y.table.unusedProc = some np) :
    i ≠ np := by
  rintro rfl
  have is := List.find?_some (p := fun j => decide ((y.table.proc j).state = .UNUSED)) found
  exact forkable.used (of_decide_eq_true is)

theorem proc_forkFail {t : Ptable ι} {j : Pslot} (found : t.unusedProc = some np)
    (idle : (t.proc i).task = .user) (other : j ≠ np) :
    ((t.fork i).forkFail i np).proc j = t.proc j := by
  unfold Ptable.fork Ptable.forkFail
  rw [found]
  simp only [Ptable.setProc_proc, Ptable.allocproc_proc, if_neg other]
  by_cases self : j = i
  · subst self
    simp only [if_true, if_neg other, ← idle]
  · rw [if_neg self, if_neg self]

theorem dupFds_ok (other : i ≠ np) (fds : List (Fin NOFILE)) (y : Machine ι)
    (files : ∀ fd f, (y.space i).ofile fd = some f → 1 ≤ y.fref f) :
    ∃ y', fds.foldlM (dupFd i np) y = .ok y' ∧ y'.table = y.table ∧ y'.space i = y.space i ∧
      y'.iref = y.iref ∧ y'.phys = y.phys := by
  induction fds generalizing y with
  | nil => exact ⟨y, rfl, rfl, rfl, rfl, rfl⟩
  | cons fd rest ih =>
    rw [List.foldlM_cons]
    cases here : (y.space i).ofile fd with
    | none =>
      rw [show dupFd i np y fd = .ok y by unfold dupFd; rw [here], ok_bind]
      exact ih y files
    | some f =>
      let y₁ := { y with fref := update y.fref f (y.fref f + 1) }.setSpace np
        { y.space np with ofile := update (y.space np).ofile fd (some f) }
      have step : dupFd i np y fd = .ok y₁ := by
        unfold dupFd filedup
        rw [here]
        simp only
        rw [if_neg (Int.not_lt.2 (files fd f here))]
        rfl
      have space : y₁.space i = y.space i := update_of_ne other _ _
      have more : ∀ g, y.fref g ≤ y₁.fref g := by
        intro g
        show y.fref g ≤ update y.fref f (y.fref f + 1) g
        rw [update_apply]
        split
        · next same =>
            rw [same]
            omega
        · exact Int.le_refl _
      rw [step, ok_bind]
      obtain ⟨y', run, table', space', iref', phys'⟩ := ih y₁ fun fd f is => by
        rw [space] at is
        exact Int.le_trans (files fd f is) (more f)
      exact ⟨y', run, table', space'.trans space, iref', phys'⟩

/-- **`fork` after the copy** counts one more reference to the current directory and returns the
pid. -/
theorem forkRest_ok (other : i ≠ np) (files : ∀ fd f, (y.space i).ofile fd = some f → 1 ≤ y.fref f)
    (d : Page) :
    ∃ y', y.forkRest i np d = .ok (y', (y.table.proc np).pid.toInt) ∧ y'.iref ≠ y.iref := by
  have space : (y.inherit i np d).space i = y.space i := update_of_ne other _ _
  obtain ⟨y₁, run, table, _, iref, _⟩ := dupFds_ok other (List.finRange NOFILE) (y.inherit i np d)
    (by rw [space]; exact files)
  have pid : (y₁.table.proc np).pid = (y.table.proc np).pid := by
    rw [table]
    unfold inherit Ptable.forkCopy
    simp only [Ptable.setProc_proc, if_neg other.symm, if_true]
  refine ⟨y₁.launch i np, ?_, fun same => ?_⟩
  · unfold forkRest
    rw [run, ok_bind, ← pid]
    rfl
  · have counted : (y₁.launch i np).iref (y₁.space i).cwd = y₁.iref (y₁.space i).cwd + 1 :=
      update_self _ _ _
    have before : y₁.iref (y₁.space i).cwd = y.iref (y₁.space i).cwd := congrFun iref _
    rw [same] at counted
    omega

/-- The calls of `kalloc` that `fork` makes. -/
def forkPlan (y : Machine ι) (i : Pslot) : List Use := .page :: copyPlan (y.space i).sz

/-- The page is for a page table. -/
def isTable : Use → Bool
  | .page => false
  | .ktable => true
  | .utable => true

theorem unleaked_fail (forkable : Forkable K y i pgdir) (found : y.table.unusedProc = some np)
    (tables : y'.table = y.table.fork i) (spaces : ∀ j, j ≠ np → y'.space j = y.space j)
    (files : y'.fref = y.fref) (inodes : y'.iref = y.iref) {phys : Phys}
    (restored : Restored K y.phys phys) (space : Space) :
    Unleaked y (y'.forkFail i np phys space) pgdir := by
  have intact : Intact y.phys phys pgdir := forkable.inUse.intact restored.kept
  refine ⟨restored.free, fun j different => ⟨?_, ?_⟩, files, inodes,
    fun v => congrFun intact.dir.entries v, fun a user => intact.look user⟩
  all_goals rw [found, ne_eq, Option.some.injEq, eq_comm] at different
  · show (y'.table.forkFail i np).proc j = _
    rw [tables]
    exact proc_forkFail found forkable.idle different
  · exact (update_of_ne different _ _).trans (spaces j different)

/-- **The ways of `fork`** with an entry to take: a page was refused, and all is as before; a page
table was refused, and a page is lost; or a child. -/
theorem fork_cases (forkable : Forkable K y i pgdir) (found : y.table.unusedProc = some np) :
    (∃ y', y.fork K i pgdir = .ok (y', -1) ∧ Unleaked y y' pgdir ∧
      ∀ kind, y.phys.Spared kind (y.forkPlan i) ↔ kind .page = false) ∨
    (∃ y' use, y.fork K i pgdir = .ok (y', -1) ∧ (∃ q ∈ y.phys.free, q ∉ y'.phys.free) ∧
    use ≠ .page ∧
      ∀ kind, y.phys.Spared kind (y.forkPlan i) ↔ kind use = false) ∨
    (∃ y', y.fork K i pgdir = .ok (y', y.table.nextpid.toInt) ∧ y'.iref ≠ y.iref ∧
      ∀ kind, y.phys.Spared kind (y.forkPlan i)) := by
  have other := forkable.other found
  cases refuses : y.phys.refuses with
  | true =>
    let y₁ := { y with table := y.table.fork i }
    have restored : Restored K y.phys y.phys.refused :=
      ⟨fun _ => Iff.rfl, fun _ _ => rfl, rfl, forkable.pool.refused⟩
    refine .inl ⟨y₁.forkFail i np y.phys.refused { y.space np with kstack := none }, ?_, ?_,
      fun kind => spared_refused refuses⟩
    · unfold fork allocproc
      rw [found]
      simp only
      rw [y.phys.kalloc_refused refuses]
    · exact unleaked_fail forkable found (show y₁.table = y.table.fork i from rfl)
        (fun _ _ => rfl) rfl rfl restored _
  | false =>
    obtain ⟨kstack, listed, kalloc⟩ := y.phys.kalloc_taken refuses
    have later : ∀ q ∈ y.phys.taken.free, q ∈ y.phys.free :=
      fun q mem => listed ▸ List.mem_cons_of_mem kstack mem
    have pool : Pool K y.phys.taken :=
      ⟨(List.nodup_cons.1 (listed ▸ forkable.pool.nodup)).2,
        fun q mem => forkable.pool.valid q (later q mem)⟩
    have inUse : InUse y.phys.taken pgdir :=
      fun x q here mem => forkable.inUse x q here (later q mem)
    have plan : ∀ kind, y.phys.Spared kind (y.forkPlan i) ↔
        y.phys.taken.Spared kind (copyPlan (y.space i).sz ++ []) := by
      intro kind
      rw [List.append_nil]
      exact spared_taken refuses
    let y₁ := withStack { y with table := y.table.fork i } np y.phys.taken kstack
    have spaces : ∀ j, j ≠ np → y₁.space j = y.space j :=
      fun j different => update_of_ne different _ _
    have stack : (y₁.space np).kstack = some kstack :=
      congrArg Space.kstack (update_self np _ y.space)
    have call : y.fork K i pgdir = y₁.forkCopy K i np pgdir := by
      unfold fork allocproc
      rw [found]
      simp only
      rw [kalloc]
    have size : (y₁.space i).sz = (y.space i).sz := by rw [spaces i other]
    have pid : (y₁.table.proc np).pid = y.table.nextpid := by
      show ((y.table.fork i).proc np).pid = _
      unfold Ptable.fork
      rw [found]
      simp only [Ptable.setProc_proc, Ptable.allocproc_proc, if_neg other.symm, if_true]
      rfl
    rw [call]
    unfold forkCopy
    rw [size, stack]
    simp only [plan]
    rcases copyuvm_cases pool inUse forkable.small fun v below =>
      forkable.there v (lt_pages.2 below) with
      ⟨phys, d, copied, _, spared⟩ | ⟨phys, failed, restored, spared⟩ | ⟨phys, use, failed, lost,
        notPage, spared⟩
    · obtain ⟨y', rest, counted⟩ := forkRest_ok (y := { y₁ with phys }) other
        (show ∀ fd f, (y₁.space i).ofile fd = some f →
          1 ≤ y.fref f by rw [spaces i other]; exact forkable.files) d
      refine .inr (.inr ⟨y', ?_, counted, fun kind => (spared kind []).2 rfl⟩)
      rw [show y₁.phys.copyuvm K pgdir (y.space i).sz = .ok (phys, some d) from copied, ← pid]
      exact rest
    · obtain ⟨phys', back, freed⟩ :=
        kfree_kstack forkable.pool listed (fun q => (restored.free q).1) restored.pool
      refine .inl ⟨y₁.forkFail i np phys' { y₁.space np with pgdir := none, kstack := none }, ?_,
        unleaked_fail forkable found rfl spaces rfl rfl (restored.withStack listed freed) _,
        fun kind => spared kind []⟩
      rw [show y₁.phys.copyuvm K pgdir (y.space i).sz = .ok (phys, none) from failed]
      simp only [ofFault, ok_bind, Option.getD_some, back]
      rfl
    · obtain ⟨phys', back, freed⟩ := kfree_kstack forkable.pool listed lost.fewer lost.pool
      refine .inr
        (.inl ⟨y₁.forkFail i np phys' { y₁.space np with pgdir := none, kstack := none }, use, ?_,
        lost.withStack forkable.pool listed freed, notPage, fun kind => spared kind []⟩)
      rw [show y₁.phys.copyuvm K pgdir (y.space i).sz = .ok (phys, none) from failed]
      simp only [ofFault, ok_bind, Option.getD_some, back]
      rfl

/-- **`fork` leaks nothing when it fails, exactly when** there is no entry to take, or the first
page refused, if any, is not for a page table and the pid it would return is not `-1`. -/
theorem fork_unleaked_iff (forkable : Forkable K y i pgdir) :
    ∃ y' r, y.fork K i pgdir = .ok (y', r) ∧
      ((r = -1 → Unleaked y y' pgdir) ↔ y.table.unusedProc = none ∨
        (y.phys.Spared isTable (y.forkPlan i) ∧
          ¬ (y.table.nextpid = -1 ∧ y.phys.Spared (fun _ => true) (y.forkPlan i)))) := by
  cases found : y.table.unusedProc with
  | none =>
    refine ⟨y, -1, ?_, iff_of_true (fun _ => ?_) (.inl rfl)⟩
    · unfold fork allocproc
      rw [found]
    · exact ⟨fun _ => Iff.rfl, fun _ _ => ⟨rfl, rfl⟩, rfl, rfl, fun _ => rfl, fun _ _ => rfl⟩
  | some np =>
    rcases fork_cases forkable found
      with ⟨y', done, unleaked, spared⟩ | ⟨y', use, done, ⟨q, was, gone⟩, notPage, spared⟩ |
      ⟨y', done, counted, spared⟩
    · refine ⟨y', -1, done, iff_of_true (fun _ => unleaked)
        (.inr ⟨(spared _).2 rfl, fun both => ?_⟩)⟩
      exact nomatch (spared _).1 both.2
    · refine ⟨y', -1, done, iff_of_false (fun safe => gone (((safe rfl).free q).2 was)) ?_⟩
      rintro (none | ⟨safe, _⟩)
      · cases none
      · have safe := (spared _).1 safe
        cases use with
        | page => exact notPage rfl
        | ktable => cases safe
        | utable => cases safe
    · refine ⟨y', _, done, ?_⟩
      rw [or_iff_right nofun, and_iff_right (spared _), and_iff_left (spared _)]
      constructor
      · rintro safe wrapped
        exact counted (safe (by rw [wrapped]; rfl)).inodes
      · intro small wrapped
        exact absurd (BitVec.eq_of_toInt_eq (wrapped.trans (by decide))) small

/-- The first process, of one page, and some free pages. -/
def lone (free : List Page) : Machine (Fin 1) where
  table := .userinit
  space _ :=
    ⟨some 0x403, some 0x400, 0x1000, ⟨0, 0, 0, 0, 0, 0, 0, 0, 0, 0, 0, 0, 0⟩, fun _ => none,
    ⟨0, NINODE_pos⟩, []⟩
  phys := { oneTable 0 with free }
  fref _ := 0
  iref _ := 1

theorem forkable_lone {free : List Page} (pool : Pool smallKernel (lone free).phys)
    (inUse : InUse (lone free).phys 0x400) : Forkable smallKernel (lone free) initproc 0x400 where
  used := show ((Ptable.userinit : Ptable (Fin 1)).proc initproc).state ≠ .UNUSED by decide
  idle := show ((Ptable.userinit : Ptable (Fin 1)).proc initproc).task = .user by decide
  files _ _ is := nomatch is
  small := show 0x1000 ≤ KERNBASE by decide
  there _ below := there_stocked below
  inUse := inUse
  pool := pool

/-- The page for the directory is refused: the kernel stack is given back. -/
theorem fork_unleaked_iff_lone :
    ∃ y', (lone [0x500]).fork smallKernel initproc 0x400 = .ok (y', -1) ∧
      Unleaked (lone [0x500]) y' 0x400 := by
  have pool : Pool smallKernel (lone [0x500]).phys := by
    refine ⟨List.nodup_singleton _, fun p mem => ?_⟩
    rw [List.mem_singleton.1 mem]
    decide
  have inUse : InUse (lone [0x500]).phys 0x400 := by
    intro x q here mem
    have is : q = 0x500 := List.mem_singleton.1 mem
    rcases held_oneTable here with rfl | rfl | rfl <;> exact absurd is (by decide)
  obtain ⟨y', r, done, unleaked⟩ := fork_unleaked_iff (forkable_lone pool inUse)
  have fails : ∃ y', (lone [0x500]).fork smallKernel initproc 0x400 = .ok (y', -1) := ⟨_, rfl⟩
  obtain ⟨y₁, fails⟩ := fails
  cases done.symm.trans fails
  exact ⟨y', done, unleaked.2 (by decide) rfl⟩

/-- With two free pages the first page table of the kernel part is refused: `fork` fails, and the
page of the directory is lost. -/
theorem fork_loses_directory :
    ∃ y', (lone [0x500, 0x501]).fork smallKernel initproc 0x400 = .ok (y', -1) ∧
    (lone [0x500, 0x501]).phys.free = [0x500, 0x501] ∧ y'.phys.free = [0x500] ∧
    ¬ Unleaked (lone [0x500, 0x501]) y' 0x400 := by
  refine ⟨_, rfl, rfl, rfl, fun unleaked => ?_⟩
  have back := (unleaked.free 0x501).2 (by decide)
  exact absurd back (by decide)

end Machine

end Xv6.Vm
