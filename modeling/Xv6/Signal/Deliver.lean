/-
**Signal delivery: the `T_DIVIDE` case of `trap`.**

A divide trap of a process with a handler pushes seven words to the stack of the trap frame and
redirects the frame to the handler. Neither the privilege level of the interrupted code nor the
stack pointer is looked at.

`trap` is modelled for the vectors that reach the `T_DIVIDE` or the `default` case; the device and
system call vectors are dispatched elsewhere. The words it stores to memory are returned in order.
-/

import Xv6.Lib.Memory
import Xv6.Param

namespace Xv6

open Lib

def T_DIVIDE : BitVec 32 := 0

def SIGFPE : Fin 257 := 0

def DPL_USER : BitVec 16 := 3

/-- `struct trapframe`, but for its data segments and padding. -/
structure TrapFrame where
  edi : BitVec 32
  esi : BitVec 32
  ebp : BitVec 32
  ebx : BitVec 32
  edx : BitVec 32
  ecx : BitVec 32
  eax : BitVec 32
  trapno : BitVec 32
  err : BitVec 32
  eip : BitVec 32
  cs : BitVec 16
  eflags : BitVec 32
  esp : BitVec 32
  deriving DecidableEq

/-- The fields of `struct proc` that `trap` uses for these vectors. -/
structure TrapProc where
  sz : BitVec 32
  killed : Bool
  handler : Fin 257 → BitVec 32

/-- How `trap` ends. -/
inductive TrapEnd
  /-- It returns to `trapret` with this frame. -/
  | resume (tf : TrapFrame)
  /-- The process calls `exit`. -/
  | exit
  /-- `panic("trap")`. -/
  | panic
  deriving DecidableEq

/-- The end of `trap`, its words stored to memory, and `proc->killed`. -/
structure TrapResult where
  ending : TrapEnd
  stores : List (BitVec 32 × BitVec 32)
  killed : Bool
  deriving DecidableEq

/-- The part of `trap` behind the `switch`. -/
def trapTail (killed : Bool) (tf : TrapFrame) (stores : List (BitVec 32 × BitVec 32)) :
    TrapResult :=
  if killed ∧ tf.cs &&& 3 = DPL_USER then ⟨.exit, stores, killed⟩ else ⟨.resume tf, stores, killed⟩

/-- The `default` case of `trap`. -/
def trapDefault (p : TrapProc) (tf : TrapFrame) : TrapResult :=
  if tf.cs &&& 3 = 0 then ⟨.panic, [], p.killed⟩ else trapTail true tf []

/-- The words that a delivery pushes, highest first. -/
def signalFrame (p : TrapProc) (tf : TrapFrame) : List (BitVec 32 × BitVec 32) :=
  [(tf.esp - 4, 0x74), (tf.esp - 8, tf.ebp), (tf.esp - 12, tf.eax), (tf.esp - 16, tf.ecx),
    (tf.esp - 20, tf.edx), (tf.esp - 24, 0), (tf.esp - 28, p.handler 256)]

/-- The frame redirected to the handler. -/
def redirect (p : TrapProc) (tf : TrapFrame) : TrapFrame :=
  { tf with esp := tf.esp - 28, eip := p.handler SIGFPE }

/-- `trap`, for the vectors that no device or system call handles. -/
def trap (p : TrapProc) (tf : TrapFrame) : TrapResult :=
  if tf.trapno = T_DIVIDE then
    if p.handler SIGFPE ≠ -1 then trapTail p.killed (redirect p tf) (signalFrame p tf)
    else trapDefault p tf
  else trapDefault p tf

/-- The memory after the stores. -/
def TrapResult.memory (r : TrapResult) (m : Memory) : Memory :=
  r.stores.foldl (fun m w => m.write w.1 w.2) m

/-- All four bytes of the word at `a` lie in `[0, sz)`. -/
def InUser (sz a : BitVec 32) : Prop := a.toNat + 4 ≤ sz.toNat

instance (sz a : BitVec 32) : Decidable (InUser sz a) := inferInstanceAs (Decidable (_ ≤ _))

/-- **A delivery is confined**: it redirects a frame of user mode only and stores inside the
process, or it is the default treatment, which stores nothing. -/
def Confined (p : TrapProc) (tf : TrapFrame) (r : TrapResult) : Prop :=
  tf.cs &&& 3 = DPL_USER ∧ (∀ w ∈ r.stores, InUser p.sz w.1) ∨ r = trapDefault p tf ∧ r.stores = []

theorem stores_trapTail (killed : Bool) (tf : TrapFrame) (stores : List (BitVec 32 × BitVec 32)) :
    (trapTail killed tf stores).stores = stores := by
  unfold trapTail
  split <;> rfl

theorem inUser_signalFrame (p : TrapProc) (tf : TrapFrame) :
    (∀ w ∈ signalFrame p tf, InUser p.sz w.1) ↔
      28 ≤ tf.esp.toNat ∧ tf.esp.toNat ≤ p.sz.toNat := by
  unfold signalFrame InUser
  simp only [List.forall_mem_cons, List.not_mem_nil, false_implies, implies_true, and_true]
  constructor
  · rintro ⟨first, _, _, _, _, _, last⟩
    have bound := p.sz.isLt
    bv_omega
  · rintro ⟨room, inside⟩
    bv_omega

/-- **When a delivery is confined to user memory.** For every divide trap of a process with a
registered handler: exactly when it came from user mode and the stack pointer lies at least 28 bytes
above 0 and not above `sz`. -/
theorem delivery_confined_iff {p : TrapProc} {tf : TrapFrame} (divide : tf.trapno = T_DIVIDE)
    (registered : p.handler SIGFPE ≠ -1) :
    Confined p tf (trap p tf) ↔
      tf.cs &&& 3 = DPL_USER ∧ 28 ≤ tf.esp.toNat ∧ tf.esp.toNat ≤ p.sz.toNat := by
  have stores : (trap p tf).stores = signalFrame p tf := by
    unfold trap
    rw [if_pos divide, if_pos registered, stores_trapTail]
  unfold Confined
  rw [stores, inUser_signalFrame]
  refine or_iff_left ?_
  rintro ⟨_, none'⟩
  cases none'

/-- A process of three pages with a handler at `0x10` and a restorer at `0x20`. -/
def handling : TrapProc := ⟨0x3000, false, fun i => if i = SIGFPE then 0x10 else 0x20⟩

/-- A divide trap with the given code segment and stack pointer. -/
def divideTrap (cs : BitVec 16) (esp : BitVec 32) : TrapFrame :=
  ⟨0, 0, 0x2fe8, 0, 0, 5, 7, T_DIVIDE, 0, 0x71, cs, 0x202, esp⟩

theorem delivery_confined_on_stack : Confined handling (divideTrap 0x23 0x2fc0)
    (trap handling (divideTrap 0x23 0x2fc0)) :=
  (delivery_confined_iff rfl (by decide)).mpr (by decide)

/-- **A stack pointer into the kernel** makes `trap` store the seven words there, and a divide trap
of the kernel itself is sent to the handler as well. -/
theorem delivery_into_kernel :
    ¬ Confined handling (divideTrap 0x23 0x80110020) (trap handling (divideTrap 0x23 0x80110020)) ∧
      (0x80110004, 0x20) ∈ (trap handling (divideTrap 0x23 0x80110020)).stores ∧
      (trap handling (divideTrap 8 0x2fc0)).ending =
        .resume (redirect handling (divideTrap 8 0x2fc0)) ∧
      ¬ Confined handling (divideTrap 8 0x2fc0) (trap handling (divideTrap 8 0x2fc0)) := by
  refine ⟨?_, by decide, rfl, ?_⟩
  · rintro (⟨_, inside⟩ | ⟨_, none'⟩)
    · exact absurd (inside _ (.head _)) (by decide)
    · cases none'
  · rintro (⟨user, _⟩ | ⟨_, none'⟩)
    · exact absurd user (by decide)
    · cases none'

end Xv6
