/-
**Fetching system call arguments: `syscall.c`.**

User and kernel share the address space of the current page table, so a user pointer is an address
of the same memory. The process is its size `sz` and its saved user stack pointer `esp`. A fetch
that fails returns `none` for the source's `-1`.
-/

import Xv6.Lib.Memory
import Xv6.Param

namespace Xv6

open Lib

/-- `fetchint`. -/
def fetchint (m : Memory) (sz addr : BitVec 32) : Option (BitVec 32) :=
  if addr ≥ sz ∨ addr + 4 > sz then none else some (m.read addr)

/-- `argint`. -/
def argint (m : Memory) (sz esp : BitVec 32) (n : BitVec 32) : Option (BitVec 32) :=
  fetchint m sz (esp + 4 + 4 * n)

/-- `argptr`; `size` is an `int`. -/
def argptr (m : Memory) (sz esp : BitVec 32) (n size : BitVec 32) : Option (BitVec 32) := do
  let i ← argint m sz esp n
  if i ≥ sz ∨ i + size > sz then none else some i

/-! ### What a fetch depends on -/

/-- Two memories are the same in `[0, sz)`. -/
def AgreeBelow (sz : BitVec 32) (m m' : Memory) : Prop := ∀ a, a < sz → m a = m' a

section Fetch

variable {m m' : Memory} {sz esp n size addr : BitVec 32}

theorem fetchint_congr (agree : AgreeBelow sz m m') (small : sz.toNat ≤ KERNBASE)
    (addr : BitVec 32) : fetchint m sz addr = fetchint m' sz addr := by
  unfold fetchint
  split
  · rfl
  next inside =>
    obtain ⟨start, stop⟩ := not_or.mp inside
    have size : KERNBASE = 2 ^ 31 := rfl
    have bytes : ∀ t : BitVec 32, t < 4 → m (addr + t) = m' (addr + t) :=
      fun t first => agree _ (by bv_omega)
    rw [Memory.read_congr bytes]

theorem argint_congr (agree : AgreeBelow sz m m') (small : sz.toNat ≤ KERNBASE)
    (esp n : BitVec 32) :
    argint m sz esp n = argint m' sz esp n := fetchint_congr agree small _

theorem argptr_congr (agree : AgreeBelow sz m m') (small : sz.toNat ≤ KERNBASE)
    (esp n size : BitVec 32) : argptr m sz esp n size = argptr m' sz esp n size := by
  rw [argptr, argptr, argint_congr agree small]

theorem argptr_eq_some (fetched : argptr m sz esp n size = some addr) :
    addr < sz ∧ addr + size ≤ sz := by
  unfold argptr at fetched
  obtain ⟨i, _, checked⟩ := Option.bind_eq_some_iff.mp fetched
  split at checked
  · cases checked
  next inside =>
    cases checked
    obtain ⟨start, stop⟩ := not_or.mp inside
    exact ⟨BitVec.not_le.mp start, BitVec.not_lt.mp stop⟩

end Fetch

end Xv6
