/-
**`sys_signal` and the handler table in `struct proc`.**

The table of handlers is the last field of `struct proc`, in the array `ptable.proc`, and
`sys_signal` uses its first argument as an index without a check. `sysSignal_table` says that the
model of the process table does the same where it does not stop.

The call runs on the memory that holds the process table, the trap frame and the user stack alike. A
local variable that `argint` did not set holds whatever the stack held, passed in as `junk`.
-/

import Xv6.Proc.Table
import Xv6.Syscall.Args

namespace Xv6

open Lib

/-! ### `struct proc` -/

/-- Offset of `tf` in `struct proc`. -/
def tfOffset : BitVec 32 := 24

/-- Offset of `handler` in `struct proc`. -/
def handlerOffset : BitVec 32 := 124

/-- `sizeof(struct proc)`: 31 words before the 257 handlers. -/
def procSize : BitVec 32 := 1152

/-- Offset of `esp` in `struct trapframe`. -/
def espOffset : BitVec 32 := 68

/-- The slot of the restorer. -/
def RESTORER : BitVec 32 := 256

/-- `&proc->handler[i]`; the address wraps around. -/
def handlerAddr (p i : BitVec 32) : BitVec 32 := p + handlerOffset + 4 * i

/-- `sys_signal` of the process `p`: the result and the memory after it. -/
def sysSignal (m : Memory) (p : BitVec 32) (junk : BitVec 32 × BitVec 32) : BitVec 32 × Memory :=
  let sz := m.read p
  let esp := m.read (m.read (p + tfOffset) + espOffset)
  let signum := (argint m sz esp 0).getD junk.1
  let handler := (argint m sz esp 1).getD junk.2
  if signum = -1 then (handler, m.write (handlerAddr p RESTORER) handler)
  else (handler, m.write (handlerAddr p signum) handler)

section Signal

variable {m m' : Memory} {p : BitVec 32} {junk : BitVec 32 × BitVec 32}

/-- The value of `signum`. -/
def signumOf (m : Memory) (p : BitVec 32) (junk : BitVec 32 × BitVec 32) : BitVec 32 :=
  (argint m (m.read p) (m.read (m.read (p + tfOffset) + espOffset)) 0).getD junk.1

/-- The value of `handler`. -/
def handlerOf (m : Memory) (p : BitVec 32) (junk : BitVec 32 × BitVec 32) : BitVec 32 :=
  (argint m (m.read p) (m.read (m.read (p + tfOffset) + espOffset)) 1).getD junk.2

/-- The index of the slot that `signum` stands for. -/
def slotOf (signum : BitVec 32) : BitVec 32 := if signum = -1 then RESTORER else signum

theorem sysSignal_eq (m : Memory) (p : BitVec 32) (junk : BitVec 32 × BitVec 32) :
    sysSignal m p junk = (handlerOf m p junk,
      m.write (handlerAddr p (slotOf (signumOf m p junk))) (handlerOf m p junk)) := by
  unfold sysSignal slotOf
  simp only
  split
  · next restorer => rw [if_pos (show signumOf m p junk = -1 from restorer)]; rfl
  · next other => rw [if_neg (show ¬ signumOf m p junk = -1 from other)]; rfl

/-- From `m` to `m'` at most the element `j` of the handler table of `p` changed. -/
def OnlySlot (m m' : Memory) (p j : BitVec 32) : Prop := ∀ x, 4 ≤ x - handlerAddr p j → m' x = m x

/-- **`sys_signal` keeps to its own table**: at most one of the elements `0..256` changes, and the
last one only for `-1`. -/
def OwnTable (m m' : Memory) (p signum : BitVec 32) : Prop :=
  ∃ j : BitVec 32, j ≤ 256 ∧ (signum ≠ -1 → j ≠ 256) ∧ OnlySlot m m' p j

theorem handlerAddr_inj {i j x : BitVec 32} (first : x - handlerAddr p i < 4)
    (second : x - handlerAddr p j < 4) : 4 * i = 4 * j := by
  unfold handlerAddr handlerOffset at *
  bv_omega

theorem OnlySlot.write (j v : BitVec 32) : OnlySlot m (m.write (handlerAddr p j) v) p j :=
  fun _ outside => Memory.write_of_le outside

theorem handlerAddr_congr {i j : BitVec 32} (same : 4 * i = 4 * j) :
    handlerAddr p i = handlerAddr p j := by
  unfold handlerAddr
  rw [same]

theorem OnlySlot.index {i j v : BitVec 32} (only : OnlySlot m (m.write (handlerAddr p i) v) p j)
    (changes : m.read (handlerAddr p i) ≠ v) : 4 * i = 4 * j := by
  by_contra other
  refine changes ?_
  have same : (m.write (handlerAddr p i) v).read (handlerAddr p i) = m.read (handlerAddr p i) := by
    refine Memory.read_congr fun t small => only _ ?_
    have distance : handlerAddr p i + t - handlerAddr p i = t := by bv_omega
    by_contra near
    exact other (handlerAddr_inj (by rw [distance]; exact small) (BitVec.not_le.mp near))
  rw [← same, Memory.read_write_self]

/-- **The `sys_signal` of the process table**: a memory with the handlers of an entry has them after
the call. -/
theorem sysSignal_table {ι : Type} {s t : Ptable ι} {i : Pslot}
    (holds : ∀ j : Fin 257, m.read (handlerAddr p (.ofNat 32 j)) = (s.proc i).handler j)
    (done : s.sysSignal i (signumOf m p junk) (handlerOf m p junk) = .ok t) (j : Fin 257) :
    (sysSignal m p junk).2.read (handlerAddr p (.ofNat 32 j)) = (t.proc i).handler j := by
  obtain ⟨k, place, rfl⟩ : ∃ k : Fin 257, 4 * slotOf (signumOf m p junk) = 4 * .ofNat 32 k ∧
      t = s.storeHandler i k (handlerOf m p junk) := by
    unfold Ptable.sysSignal at done
    unfold slotOf
    split at done
    · next restorer =>
      cases done
      exact ⟨_, by rw [if_pos restorer]; rfl, rfl⟩
    · next other =>
      split at done
      · next inside =>
        cases done
        refine ⟨_, ?_, rfl⟩
        rw [if_neg other]
        bv_omega
      · cases done
  rw [sysSignal_eq, handlerAddr_congr place]
  unfold Ptable.storeHandler
  rw [Ptable.setProc]
  simp only [Function.update_self]
  by_cases same : j = k
  · rw [same, Function.update_self, Memory.read_write_self]
  · rw [Function.update_of_ne same, ← holds j]
    have distinct : j.val ≠ k.val := fun equal => same (Fin.ext equal)
    have low := j.isLt
    have low' := k.isLt
    refine Memory.read_write_of_apart ⟨?_, ?_⟩
    · unfold handlerAddr
      bv_omega
    · unfold handlerAddr
      bv_omega

end Signal

/-- **When `sys_signal` keeps to its own table.** For every memory, process and arguments: the call
changes at most one element of the caller's table, and the restorer's only for `-1`, exactly when
`signum` is `-1` or an index that wraps around to `0..255`, or when the word it stores is there
already. -/
theorem signal_own_table_iff (m : Memory) (p : BitVec 32) (junk : BitVec 32 × BitVec 32) :
    OwnTable m (sysSignal m p junk).2 p (signumOf m p junk) ↔
      signumOf m p junk = -1 ∨ 4 * signumOf m p junk ≤ 1020 ∨
        m.read (handlerAddr p (signumOf m p junk)) = handlerOf m p junk := by
  rw [sysSignal_eq]
  simp only
  generalize signumOf m p junk = signum
  generalize handlerOf m p junk = handler
  unfold slotOf
  by_cases restorer : signum = -1
  · rw [if_pos restorer]
    refine iff_of_true ⟨256, BitVec.le_refl _, fun other => absurd restorer other, ?_⟩
      (.inl restorer)
    exact OnlySlot.write RESTORER handler
  · rw [if_neg restorer, or_iff_right restorer]
    constructor
    · rintro ⟨j, inside, last, only⟩
      by_cases changes : m.read (handlerAddr p signum) = handler
      · exact .inr changes
      · have index := only.index changes
        have other := last restorer
        left
        bv_omega
    · rintro (small | unchanged)
      · have wrapped : ∃ j : BitVec 32, j ≤ 255 ∧ 4 * j = 4 * signum := by
          refine ⟨BitVec.ofNat 32 (signum.toNat % 2 ^ 30), ?_, ?_⟩ <;> bv_omega
        obtain ⟨j, inside, same⟩ := wrapped
        refine ⟨j, by bv_omega, fun _ => by bv_omega, ?_⟩
        rw [handlerAddr_congr same.symm]
        exact OnlySlot.write j handler
      · refine ⟨0, by decide, fun _ => by decide, fun x _ => ?_⟩
        rw [← unchanged, Memory.write_read_self]

/-- A process at the start of a process table calls `signal(288, 0x1234)`. -/
def signalCall : Memory :=
  ((((Memory.write (fun _ => 0) 0x80110000 0x2000).write 0x80110018 0x8dfff000).write
    0x8dfff044 0x1000).write 0x1004 288).write 0x1008 0x1234

/-- **`signal(288, h)` registers `h` for the next process**: the table of a process has 257 elements
and is followed by the 31 other words of the next entry of `ptable.proc`. -/
theorem signal_hits_next_process :
    signalCall.read (handlerAddr (0x80110000 + procSize) 0) = 0 ∧
      (sysSignal signalCall 0x80110000 (0, 0)).2.read (handlerAddr (0x80110000 + procSize) 0) =
        0x1234 ∧
      ¬ OwnTable signalCall (sysSignal signalCall 0x80110000 (0, 0)).2 0x80110000
        (signumOf signalCall 0x80110000 (0, 0)) := by
  have effect : (sysSignal signalCall 0x80110000 (0, 0)).2 =
      signalCall.write (handlerAddr (0x80110000 + procSize) 0) 0x1234 := by
    have signum : signumOf signalCall 0x80110000 (0, 0) = 288 := by decide +kernel
    have handler : handlerOf signalCall 0x80110000 (0, 0) = 0x1234 := by decide +kernel
    rw [sysSignal_eq, signum, handler]
    rfl
  have before : signalCall.read (handlerAddr (0x80110000 + procSize) 0) = 0 := by decide +kernel
  rw [effect, Memory.read_write_self]
  refine ⟨before, rfl, ?_⟩
  rintro ⟨j, inside, _, only⟩
  have untouched : (signalCall.write (handlerAddr (0x80110000 + procSize) 0) 0x1234).read
      (handlerAddr (0x80110000 + procSize) 0) =
        signalCall.read (handlerAddr (0x80110000 + procSize) 0) := by
    refine Memory.read_congr fun i small => only _ ?_
    unfold handlerAddr handlerOffset procSize
    bv_omega
  rw [Memory.read_write_self, before] at untouched
  exact absurd untouched (by decide)

end Xv6
