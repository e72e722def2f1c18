/-
**Physical pages, the page allocator and the two-level page tables: `kalloc.c` and `vm.c`.**

Physical memory is a map from page numbers to pages of 1024 words; page tables, page directories and
user memory all live in it, so a page freed too early or mapped twice is visible as such. A kernel
pointer to a page is the number of the page: `p2v` and `v2p` shift by `KERNBASE` and keep the page
apart from all others. Virtual addresses are numbers below `2 ^ 32`.

`kmem.freelist` is shared with all other processes, which may hold every page at the moment of a
call, so `deny` says of each call of `kalloc` whether it finds the list empty; a call also fails
when the list of the model is empty. `kalloc` and `kfree` hold the lock of `kmem`, and each is one
step here.
-/

import Mathlib.Logic.Function.Basic
import Xv6.Lib.Memory
import Xv6.Lib.Run
import Xv6.Param

namespace Xv6.Vm

open Lib Function

/-! ### `mmu.h` and `memlayout.h` -/

/-- Bytes mapped by a page. -/
def PGSIZE : Nat := 4096

/-- Directory entries per page directory. -/
def NPDENTRIES : Nat := 1024

/-- Entries per page table. -/
def NPTENTRIES : Nat := 1024

/-- Start of extended memory. -/
def EXTMEM : Nat := 0x100000

/-- Top of physical memory. -/
def PHYSTOP : Nat := 0xE000000

/-- Devices at high addresses. -/
def DEVSPACE : Nat := 0xFE000000

/-- Where the kernel is linked. -/
def KERNLINK : Nat := KERNBASE + EXTMEM

/-- The page number of a physical address. -/
abbrev Page := BitVec 20

/-- A word of physical memory: a directory or table entry, or four bytes of data. -/
abbrev Word := BitVec 32

/-- The low twelve bits of an entry. -/
abbrev Flags := BitVec 12

/-- Present. -/
def PTE_P : Flags := 0x001

/-- Writeable. -/
def PTE_W : Flags := 0x002

/-- User. -/
def PTE_U : Flags := 0x004

/-- Page directory index. -/
def PDX (va : Nat) : Nat := va / 2 ^ 22 % 1024

/-- Page table index. -/
def PTX (va : Nat) : Nat := va / 2 ^ 12 % 1024

/-- Round up to a page boundary, modulo `2 ^ 32`. -/
def PGROUNDUP (sz : Nat) : Nat := (sz + PGSIZE - 1) % 2 ^ 32 / PGSIZE * PGSIZE

/-- Round down to a page boundary. -/
def PGROUNDDOWN (a : Nat) : Nat := a / PGSIZE * PGSIZE

/-- `PTE_ADDR`, as the number of the page it is the address of. -/
def PTE_ADDR (w : Word) : Page := w.extractLsb' 12 20

/-- `PTE_FLAGS`. -/
def PTE_FLAGS (w : Word) : Flags := w.extractLsb' 0 12

/-- `pa | flags` for the address `pa` of a page, whose low bits are zero. -/
def mkpte (p : Page) (flags : Flags) : Word := p ++ flags

/-- `w & PTE_P`. -/
def present (w : Word) : Bool := PTE_FLAGS w &&& PTE_P ≠ 0

/-- `w & PTE_U`. -/
def user (w : Word) : Bool := PTE_FLAGS w &&& PTE_U ≠ 0

/-! ### Faults -/

/-- The places where `vm.c` and `kalloc.c` call `panic`. -/
inductive Panic
  | remap
  | physTopTooHigh
  | kfree
  | copyuvmExist
  | copyuvmPresent
  deriving DecidableEq, Repr

/-- How the code goes wrong: it panics, or it reads through the null pointer that `walkpgdir`
returned. -/
inductive Fault
  | panic (p : Panic)
  | nullPte
  deriving DecidableEq, Repr

/-! ### Physical memory and `kalloc.c` -/

/-- What the linker decides: where the kernel's data starts (page aligned, after its text) and where
the kernel ends. -/
structure Layout where
  /-- `V2P(data)` -/
  data : Nat
  /-- `V2P(end)` -/
  last : Nat
  aligned : data % PGSIZE = 0
  text : EXTMEM < data
  after : data < last
  room : last ≤ PHYSTOP

/-- Physical memory with its free pages. -/
structure Phys where
  /-- The words of each page. -/
  mem : Page → Nat → Word
  /-- `kmem.freelist` -/
  free : List Page
  /-- The calls of `kalloc` so far. -/
  calls : Nat
  /-- Whether a call of `kalloc` finds no page because others hold them all. -/
  deny : Nat → Bool

namespace Phys

/-- One word is stored. -/
def set (s : Phys) (p : Page) (i : Nat) (w : Word) : Phys :=
  { s with mem := update s.mem p (update (s.mem p) i w) }

/-- A page gets new contents. -/
def fill (s : Phys) (p : Page) (words : Nat → Word) : Phys := { s with mem := update s.mem p words }

/-- Byte `o` of a page. -/
def byte (s : Phys) (p : Page) (o : Nat) : BitVec 8 := Memory.byteOf (s.mem p (o / 4)) (o % 4)

/-- One byte of a page is stored. -/
def putByte (s : Phys) (p : Page) (o : Nat) (b : BitVec 8) : Phys :=
  s.set p (o / 4) (Memory.setByte (s.mem p (o / 4)) (o % 4) b)

/-- `memmove` of bytes into a page, from offset `o` on. -/
def memmove (s : Phys) (p : Page) (o : Nat) : List (BitVec 8) → Phys
  | [] => s
  | b :: rest => (s.putByte p o b).memmove p (o + 1) rest

/-- The pages `kalloc` may be refused, or the list may have run out. -/
def kalloc (s : Phys) : Phys × Option Page :=
  if s.deny s.calls then ({ s with calls := s.calls + 1 }, none)
  else
    match s.free with
    | [] => ({ s with calls := s.calls + 1 }, none)
    | r :: next => ({ s with free := next, calls := s.calls + 1 }, some r)

end Phys

variable (K : Layout)

/-- `kfree` takes pages between the end of the kernel and the top of memory. -/
def Layout.Valid (p : Page) : Prop := K.last ≤ p.toNat * PGSIZE ∧ p.toNat * PGSIZE < PHYSTOP

instance (p : Page) : Decidable (K.Valid p) := inferInstanceAs (Decidable (_ ∧ _))

namespace Phys

/-- The page is filled with junk and pushed on the list. -/
def kfree (s : Phys) (v : Page) : Except Fault Phys :=
  if K.Valid v then .ok { s.fill v (fun _ => 0x01010101) with free := v :: s.free }
  else .error (.panic .kfree)

/-! ### `walkpgdir`, `mappages`, `setupkvm` -/

/-- The entry of a virtual address: its table and its index there. With `alloc` a missing table is
made. -/
def walkpgdir (s : Phys) (pgdir : Page) (va : Nat) (alloc : Bool) : Phys × Option (Page × Nat) :=
  if present (s.mem pgdir (PDX va)) then (s, some (PTE_ADDR (s.mem pgdir (PDX va)), PTX va))
  else if alloc then
    match s.kalloc with
    | (s, none) => (s, none)
    | (s, some pgtab) =>
      ((s.fill pgtab fun _ => 0).set pgdir (PDX va) (mkpte pgtab (PTE_P ||| PTE_W ||| PTE_U)),
        some (pgtab, PTX va))
  else (s, none)

/-- The loop of `mappages`; `n` pages are left after this one. The answer is `false` where the
source returns `-1`. -/
def mapLoop (pgdir : Page) (perm : Flags) : Nat → Phys → Nat → Page → Except Fault (Phys × Bool)
  | n, s, a, pa =>
    match s.walkpgdir pgdir a true with
    | (s, none) => .ok (s, false)
    | (s, some (pgtab, i)) =>
      if present (s.mem pgtab i) then .error (.panic .remap)
      else
        let s := s.set pgtab i (mkpte pa (perm ||| PTE_P))
        match n with
        | 0 => .ok (s, true)
        | n + 1 => mapLoop pgdir perm n s ((a + PGSIZE) % 2 ^ 32) (pa + 1)

/-- Entries for `size` bytes from `va` on that refer to the physical pages from `pa` on. -/
def mappages (s : Phys) (pgdir : Page) (va size : Nat) (pa : Page) (perm : Flags) :
    Except Fault (Phys × Bool) :=
  let a := PGROUNDDOWN va
  let last := PGROUNDDOWN ((va + size + 2 ^ 32 - 1) % 2 ^ 32)
  mapLoop pgdir perm ((last + 2 ^ 32 - a) % 2 ^ 32 / PGSIZE) s a pa

end Phys

/-- One range of the kernel's mappings. -/
structure KMap where
  virt : Nat
  physStart : Nat
  physEnd : Nat
  perm : Flags

/-- The kernel's mappings, present in every process's page table. -/
def kmap : List KMap := [
  ⟨KERNBASE, 0, EXTMEM, PTE_W⟩,
  ⟨KERNLINK, KERNLINK - KERNBASE, K.data, 0⟩,
  ⟨KERNBASE + K.data, K.data, PHYSTOP, PTE_W⟩,
  ⟨DEVSPACE, DEVSPACE, 0, PTE_W⟩]

namespace Phys

/-- The loop of `setupkvm`. -/
def mapKernel (pgdir : Page) : List KMap → Phys → Except Fault (Phys × Bool)
  | [], s => .ok (s, true)
  | k :: ks, s => do
    let (s, done) ← s.mappages pgdir k.virt ((k.physEnd + 2 ^ 32 - k.physStart) % 2 ^ 32)
      (BitVec.ofNat 20 (k.physStart / PGSIZE)) k.perm
    if done then mapKernel pgdir ks s else return (s, false)

/-- The kernel part of a page table. A failure returns without freeing what was allocated. -/
def setupkvm (s : Phys) : Except Fault (Phys × Option Page) :=
  match s.kalloc with
  | (s, none) => .ok (s, none)
  | (s, some pgdir) =>
    if DEVSPACE < KERNBASE + PHYSTOP then .error (.panic .physTopTooHigh)
    else do
      let (s, done) ← mapKernel pgdir (kmap K) (s.fill pgdir fun _ => 0)
      return (s, if done then some pgdir else none)

/-! ### User memory: `allocuvm`, `deallocuvm`, `freevm` -/

/-- The rounds of a loop that goes from `a` up to `stop` page by page. -/
def rounds (a stop : Nat) : Nat := (stop - a + (PGSIZE - 1)) / PGSIZE

/-- The loop of `deallocuvm`, in at most `n` rounds. Every caller has `oldsz ≤ KERNBASE`, so that
`a` does not wrap around. -/
def deallocLoop (pgdir : Page) (oldsz : Nat) : Nat → Phys → Nat → Except Fault Phys
  | 0, s, _ => .ok s
  | n + 1, s, a =>
    if a < oldsz then
      match (s.walkpgdir pgdir a false).2 with
      | none => deallocLoop pgdir oldsz n s (a + (NPTENTRIES - 1) * PGSIZE + PGSIZE)
      | some (pgtab, i) =>
        if present (s.mem pgtab i) then
          if PTE_ADDR (s.mem pgtab i) = 0 then .error (.panic .kfree)
          else do
            let s ← s.kfree K (PTE_ADDR (s.mem pgtab i))
            deallocLoop pgdir oldsz n (s.set pgtab i 0) (a + PGSIZE)
        else deallocLoop pgdir oldsz n s (a + PGSIZE)
    else .ok s

/-- User pages are given back to bring the size from `oldsz` to `newsz`. -/
def deallocuvm (s : Phys) (pgdir : Page) (oldsz newsz : Nat) : Except Fault (Phys × Nat) :=
  if newsz ≥ oldsz then .ok (s, oldsz)
  else do
    let s ← deallocLoop K pgdir oldsz (rounds (PGROUNDUP newsz) oldsz) s (PGROUNDUP newsz)
    return (s, newsz)

/-- The loop of `allocuvm`, with `n` rounds left. It does not look at what `mappages` returns. -/
def allocLoop (pgdir : Page) (oldsz newsz : Nat) : Nat → Phys → Nat → Except Fault (Phys × Nat)
  | 0, s, _ => .ok (s, newsz)
  | n + 1, s, a =>
    match s.kalloc with
    | (s, none) => do
      let (s, _) ← s.deallocuvm K pgdir newsz oldsz
      return (s, 0)
    | (s, some mem) => do
      let (s, _) ← (s.fill mem fun _ => 0).mappages pgdir a PGSIZE mem (PTE_W ||| PTE_U)
      allocLoop pgdir oldsz newsz n s (a + PGSIZE)

/-- Page tables and pages are allocated to grow from `oldsz` to `newsz`. The answer is the new size,
or 0. -/
def allocuvm (s : Phys) (pgdir : Page) (oldsz newsz : Nat) : Except Fault (Phys × Nat) :=
  if newsz ≥ KERNBASE then .ok (s, 0)
  else if newsz < oldsz then .ok (s, oldsz)
  else allocLoop K pgdir oldsz newsz (rounds (PGROUNDUP oldsz) newsz) s (PGROUNDUP oldsz)

/-- The loop of `freevm` over the page tables, from directory entry `i` on; `n` entries are left. -/
def freeTables (pgdir : Page) : Nat → Phys → Nat → Except Fault Phys
  | 0, s, _ => .ok s
  | n + 1, s, i => do
    let s ← if present (s.mem pgdir i) then s.kfree K (PTE_ADDR (s.mem pgdir i)) else .ok s
    freeTables pgdir n s (i + 1)

/-- A page table and the user pages it maps are freed. -/
def freevm (s : Phys) (pgdir : Page) : Except Fault Phys := do
  let (s, _) ← s.deallocuvm K pgdir KERNBASE 0
  let s ← freeTables K pgdir NPDENTRIES s 0
  s.kfree K pgdir

/-! ### `copyuvm` and `copyout` -/

/-- The loop of `copyuvm` into the new directory `d`, with `n` rounds left, and its `bad` exit. -/
def copyLoop (pgdir d : Page) : Nat → Phys → Nat → Except Fault (Phys × Option Page)
  | 0, s, _ => .ok (s, some d)
  | n + 1, s, i =>
    match (s.walkpgdir pgdir i false).2 with
    | none => .error (.panic .copyuvmExist)
    | some (pgtab, j) =>
      let pte := s.mem pgtab j
      if ¬ present pte then .error (.panic .copyuvmPresent)
      else
        match s.kalloc with
        | (s, none) => do
          let s ← s.freevm K d
          return (s, none)
        | (s, some mem) => do
          let (s, done) ← (s.fill mem (s.mem (PTE_ADDR pte))).mappages d i PGSIZE mem
            (PTE_FLAGS pte)
          if done then copyLoop pgdir d n s (i + PGSIZE)
          else
            let s ← s.freevm K d
            return (s, none)

/-- A copy of a parent's page table for a child. -/
def copyuvm (s : Phys) (pgdir : Page) (sz : Nat) : Except Fault (Phys × Option Page) := do
  match ← s.setupkvm K with
  | (s, none) => return (s, none)
  | (s, some d) => copyLoop K pgdir d (rounds 0 sz) s 0

/-- The page of a user address, if it is present and the user's. A missing table is read through the
null pointer. -/
def uva2ka (s : Phys) (pgdir : Page) (uva : Nat) : Except Fault (Option Page) :=
  match (s.walkpgdir pgdir uva false).2 with
  | none => .error .nullPte
  | some (pgtab, i) =>
    if ¬ present (s.mem pgtab i) then .ok none
    else if ¬ user (s.mem pgtab i) then .ok none
    else .ok (some (PTE_ADDR (s.mem pgtab i)))

/-- The loop of `copyout`, in at most `k` rounds. -/
def copyoutLoop (pgdir : Page) : Nat → Phys → Nat → List (BitVec 8) → Except Fault (Phys × Bool)
  | 0, s, _, _ => .ok (s, true)
  | k + 1, s, va, buf =>
    if 0 < buf.length then do
      let va0 := PGROUNDDOWN va
      match ← s.uva2ka pgdir va0 with
      | none => return (s, false)
      | some pa0 =>
        let n := min (PGSIZE - (va - va0)) buf.length
        copyoutLoop pgdir k (s.memmove pa0 (va - va0) (buf.take n)) ((va0 + PGSIZE) % 2 ^ 32)
          (buf.drop n)
    else .ok (s, true)

/-- The bytes `buf` are copied to the user address `va`; every round copies at least one. The answer
is `false` where the source returns `-1`. -/
def copyout (s : Phys) (pgdir : Page) (va : Nat) (buf : List (BitVec 8)) :
    Except Fault (Phys × Bool) :=
  copyoutLoop pgdir buf.length s va buf

end Phys

end Xv6.Vm
