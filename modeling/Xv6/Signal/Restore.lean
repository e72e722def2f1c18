/-
**The way back from a handler: `restorer.h`.**

`trap` lays out seven words on the user stack, the handler's own `ret` takes the lowest one, and
`restorer` takes the others apart by offsets from its frame pointer.

The handler is any C function: `CCall entry exit` is what the calling convention says of it. The
code of `restorer` is run instruction by instruction.
-/

import Xv6.Signal.Deliver

namespace Xv6

open Lib

/-! ### The machine -/

inductive Reg
  | eax | ecx | edx | ebx | esp | ebp | esi | edi
  deriving DecidableEq

/-- Registers and memory as user code sees them. -/
structure Machine where
  reg : Reg → BitVec 32
  eip : BitVec 32
  mem : Memory

inductive Instr
  | push (r : Reg)
  | mov (src dst : Reg)
  | load (disp : BitVec 32) (base dst : Reg)
  | add (imm : BitVec 32) (r : Reg)
  | leave
  | ret

namespace Machine

def setReg (s : Machine) (r : Reg) (v : BitVec 32) : Machine :=
  { s with reg := Function.update s.reg r v }

/-- `popl`: the word on top of the stack goes to `r`. -/
def pop (s : Machine) (r : Reg) : Machine :=
  (s.setReg .esp (s.reg .esp + 4)).setReg r (s.mem.read (s.reg .esp))

/-- One instruction; `eip` is that of the last jump. -/
def exec (s : Machine) : Instr → Machine
  | .push r => { s.setReg .esp (s.reg .esp - 4) with mem := s.mem.write (s.reg .esp - 4) (s.reg r) }
  | .mov src dst => s.setReg dst (s.reg src)
  | .load disp base dst => s.setReg dst (s.mem.read (s.reg base + disp))
  | .add imm r => s.setReg r (s.reg r + imm)
  | .leave => (s.setReg .esp (s.reg .ebp)).pop .ebp
  | .ret => { s.setReg .esp (s.reg .esp + 4) with eip := s.mem.read (s.reg .esp) }

end Machine

/-- `restorer`, between the prologue and the epilogue of a function with a frame pointer. -/
def restorer : List Instr :=
  [.push .ebp, .mov .esp .ebp,
    .load 0x8 .ebp .edx, .load 0xc .ebp .ecx, .load 0x10 .ebp .eax, .add 0x14 .ebp, .mov .ebp .esp,
    .leave, .ret]

/-- The registers of a trap frame. -/
def TrapFrame.reg (tf : TrapFrame) : Reg → BitVec 32
  | .eax => tf.eax
  | .ecx => tf.ecx
  | .edx => tf.edx
  | .ebx => tf.ebx
  | .esp => tf.esp
  | .ebp => tf.ebp
  | .esi => tf.esi
  | .edi => tf.edi

/-- `trapret`: the machine goes on with the registers of the frame. -/
def trapret (tf : TrapFrame) (m : Memory) : Machine := ⟨tf.reg, tf.eip, m⟩

/-- **The calling convention**: from its entry to its `ret`, a C function with one argument keeps
the registers that are saved by the callee and the five words above its argument, and returns to the
address on top of the stack. -/
structure CCall (entry exit : Machine) : Prop where
  eip : exit.eip = entry.mem.read (entry.reg .esp)
  esp : exit.reg .esp = entry.reg .esp + 4
  saved : ∀ r, r = .ebx ∨ r = .esi ∨ r = .edi ∨ r = .ebp → exit.reg r = entry.reg r
  above : ∀ i : BitVec 32, i < 20 →
    exit.mem (entry.reg .esp + 8 + i) = entry.mem (entry.reg .esp + 8 + i)

section Restore

variable {p : TrapProc} {tf tf' : TrapFrame}

theorem trap_resumed (divide : tf.trapno = T_DIVIDE) (registered : p.handler SIGFPE ≠ -1)
    (resumed : (trap p tf).ending = .resume tf') :
    tf' = redirect p tf ∧ (trap p tf).stores = signalFrame p tf := by
  unfold trap at resumed ⊢
  rw [if_pos divide, if_pos registered] at resumed ⊢
  refine ⟨?_, stores_trapTail _ _ _⟩
  unfold trapTail at resumed
  split at resumed
  · cases resumed
  · cases resumed
    rfl

theorem read_signalFrame (m : Memory) (p : TrapProc) (tf : TrapFrame) :
    let frame := (signalFrame p tf).foldl (fun m w => m.write w.1 w.2) m
    frame.read (tf.esp - 28) = p.handler 256 ∧ frame.read (tf.esp - 20) = tf.edx ∧
      frame.read (tf.esp - 16) = tf.ecx ∧ frame.read (tf.esp - 12) = tf.eax ∧
      frame.read (tf.esp - 8) = tf.ebp ∧ frame.read (tf.esp - 4) = 0x74 := by
  have apart : ∀ a b : BitVec 32, a + 4 ≤ b → b ≤ 28 → Memory.Apart (tf.esp - a) (tf.esp - b) := by
    intro a b above top
    unfold Memory.Apart
    bv_omega
  -- a word is not touched by the pushes after its own, which go below it
  have past : ∀ (m : Memory) (v a b : BitVec 32), a + 4 ≤ b → b ≤ 28 →
      (m.write (tf.esp - b) v).read (tf.esp - a) = m.read (tf.esp - a) :=
    fun m v a b above top => Memory.read_write_of_apart (apart a b above top)
  simp only [signalFrame, List.foldl_cons, List.foldl_nil]
  refine ⟨Memory.read_write_self _ _ _, ?_, ?_, ?_, ?_, ?_⟩ <;>
    simp [past, Memory.read_write_self]

theorem CCall.read_above {entry exit : Machine} (call : CCall entry exit) {i : BitVec 32}
    (inside : i ≤ 16) :
    exit.mem.read (entry.reg .esp + 8 + i) = entry.mem.read (entry.reg .esp + 8 + i) := by
  refine Memory.read_congr fun t small => ?_
  have := call.above (i + t) (by bv_omega)
  rwa [← BitVec.add_assoc] at this

theorem CCall.frame_pointer {frame : Memory} {handled : Machine}
    (call : CCall (trapret (redirect p tf) frame) handled) :
    handled.reg .esp - 4 = tf.esp - 28 := by
  rw [call.esp, show (trapret (redirect p tf) frame).reg .esp = tf.esp - 28 from rfl]
  bv_omega

theorem CCall.frame_word {frame : Memory} {handled : Machine}
    (call : CCall (trapret (redirect p tf) frame) handled) {d u : BitVec 32} (low : 8 ≤ d)
    (high : d ≤ 24) (sum : d + u = 28) :
    (handled.mem.write (tf.esp - 28) (handled.reg .ebp)).read (tf.esp - 28 + d) =
    frame.read (tf.esp - u) := by
  have kept := call.read_above (show d - 8 ≤ 16 by bv_omega)
  have place : (trapret (redirect p tf) frame).reg .esp + 8 + (d - 8) = tf.esp - u := by
    rw [show (trapret (redirect p tf) frame).reg .esp = tf.esp - 28 from rfl]
    bv_omega
  rw [place] at kept
  rw [show tf.esp - 28 + d = tf.esp - u by bv_omega, Memory.read_write_of_apart, kept]
  · rfl
  · unfold Memory.Apart
    bv_omega

theorem run_restorer (s : Machine) :
    let t := restorer.foldl Machine.exec s
    let frame := s.mem.write (s.reg .esp - 4) (s.reg .ebp)
    t.reg .edx = frame.read (s.reg .esp - 4 + 0x8) ∧
      t.reg .ecx = frame.read (s.reg .esp - 4 + 0xc) ∧
      t.reg .eax = frame.read (s.reg .esp - 4 + 0x10) ∧
      t.reg .ebp = frame.read (s.reg .esp - 4 + 0x14) ∧ t.reg .esp = s.reg .esp - 4 + 0x14 + 4 + 4 ∧
      t.reg .ebx = s.reg .ebx ∧ t.reg .esi = s.reg .esi ∧ t.reg .edi = s.reg .edi ∧
      t.eip = frame.read (s.reg .esp - 4 + 0x14 + 4) := by
  simp only [restorer, List.foldl_cons, List.foldl_nil, Machine.exec, Machine.setReg, Machine.pop]
  simp

end Restore

/-- **All registers are restored.** For every divide trap that `trap` sends to a handler, every user
memory, and every handler that keeps to the calling convention: the handler returns to the restorer,
and when that returns, the eight registers have the values they had at the trap. -/
theorem registers_restored {p : TrapProc} {tf tf' : TrapFrame} {m : Memory} {handled : Machine}
    (divide : tf.trapno = T_DIVIDE) (registered : p.handler SIGFPE ≠ -1)
    (resumed : (trap p tf).ending = .resume tf')
    (call : CCall (trapret tf' ((trap p tf).memory m)) handled) :
    (trapret tf' ((trap p tf).memory m)).eip = p.handler SIGFPE ∧ handled.eip = p.handler 256 ∧
      (restorer.foldl Machine.exec handled).reg = tf.reg := by
  obtain ⟨rfl, stores⟩ := trap_resumed divide registered resumed
  unfold TrapResult.memory at call ⊢
  rw [stores] at call ⊢
  obtain ⟨top, edx, ecx, eax, ebp, _⟩ := read_signalFrame m p tf
  generalize (signalFrame p tf).foldl (fun m w => m.write w.1 w.2) m = frame at *
  refine ⟨rfl, ?_, ?_⟩
  · rw [call.eip, show (trapret (redirect p tf) frame).reg .esp = tf.esp - 28 from rfl]
    exact top
  · obtain ⟨edx', ecx', eax', ebp', esp', ebx', esi', edi', _⟩ := run_restorer handled
    rw [call.frame_pointer] at edx' ecx' eax' ebp' esp'
    funext r
    cases r with
    | eax =>
      exact (eax'.trans (call.frame_word (u := 12) (by decide) (by decide) (by decide))).trans eax
    | ecx =>
      exact (ecx'.trans (call.frame_word (u := 16) (by decide) (by decide) (by decide))).trans ecx
    | edx =>
      exact (edx'.trans (call.frame_word (u := 20) (by decide) (by decide) (by decide))).trans edx
    | ebp =>
      exact (ebp'.trans (call.frame_word (u := 8) (by decide) (by decide) (by decide))).trans ebp
    | esp =>
      rw [esp']
      show tf.esp - 28 + 0x14 + 4 + 4 = tf.esp
      bv_omega
    | ebx => exact ebx'.trans (call.saved .ebx (by simp))
    | esi => exact esi'.trans (call.saved .esi (by simp))
    | edi => exact edi'.trans (call.saved .edi (by simp))

/-- A handler that clobbers the registers it may, and its own argument. -/
def clobber (s : Machine) : Machine where
  reg
    | .eax | .ecx | .edx => 0xdead
    | .esp => s.reg .esp + 4
    | r => s.reg r
  eip := s.mem.read (s.reg .esp)
  mem := s.mem.write (s.reg .esp + 4) 0xdead

theorem clobber_call (s : Machine) : CCall s (clobber s) where
  eip := rfl
  esp := rfl
  saved := by
    rintro r (rfl | rfl | rfl | rfl) <;> rfl
  above := by
    intro i inside
    exact Memory.write_of_le (by bv_omega)

theorem registers_restored_after_clobber :
    let entry := trapret (redirect handling (divideTrap 0x23 0x2fc0))
      ((trap handling (divideTrap 0x23 0x2fc0)).memory fun _ => 0)
    (clobber entry).reg .eax ≠ 7 ∧
      (restorer.foldl Machine.exec (clobber entry)).reg = (divideTrap 0x23 0x2fc0).reg :=
  ⟨by decide, (registers_restored rfl (by decide) rfl (clobber_call _)).2.2⟩

/-! ### Where the process goes on -/

/-- **The address after the handler.** For every divide trap that `trap` sends to a handler, at any
address and with a faulting instruction of any length, every user memory and every handler that
keeps to the calling convention: `restorer` returns behind the faulting instruction exactly if that
is address `0x74`. -/
theorem resume_after_fault_iff {p : TrapProc} {tf tf' : TrapFrame} {m : Memory} {handled : Machine}
    (length : BitVec 32) (divide : tf.trapno = T_DIVIDE) (registered : p.handler SIGFPE ≠ -1)
    (resumed : (trap p tf).ending = .resume tf')
    (call : CCall (trapret tf' ((trap p tf).memory m)) handled) :
    (restorer.foldl Machine.exec handled).eip = tf.eip + length ↔ tf.eip + length = 0x74 := by
  obtain ⟨rfl, stores⟩ := trap_resumed divide registered resumed
  unfold TrapResult.memory at call
  rw [stores] at call
  obtain ⟨_, _, _, _, _, next⟩ := read_signalFrame m p tf
  obtain ⟨_, _, _, _, _, _, _, _, eip⟩ := run_restorer handled
  rw [call.frame_pointer, BitVec.add_assoc] at eip
  have pushed : (restorer.foldl Machine.exec handled).eip = 0x74 :=
    (eip.trans (call.frame_word (u := 4) (by decide) (by decide) (by decide))).trans next
  rw [pushed]
  exact eq_comm

/-- The divide of the test program has three bytes and stands at `0x71`. -/
theorem resume_after_fault_at_71 :
    let entry := trapret (redirect handling (divideTrap 0x23 0x2fc0))
      ((trap handling (divideTrap 0x23 0x2fc0)).memory fun _ => 0)
    (restorer.foldl Machine.exec (clobber entry)).eip = (divideTrap 0x23 0x2fc0).eip + 3 :=
  (resume_after_fault_iff 3 rfl (by decide) rfl (clobber_call _)).mpr (by decide)

/-- The same trap at another place of the program. -/
def laterTrap : TrapFrame := { divideTrap 0x23 0x2fc0 with eip := 0x171 }

/-- **A divide elsewhere** also goes on at `0x74`. -/
theorem resume_at_constant :
    let first := trapret (redirect handling (divideTrap 0x23 0x2fc0))
      ((trap handling (divideTrap 0x23 0x2fc0)).memory fun _ => 0)
    let later := trapret (redirect handling laterTrap) ((trap handling laterTrap).memory fun _ => 0)
    (trap handling laterTrap).ending = .resume (redirect handling laterTrap) ∧
      CCall later (clobber later) ∧
      (restorer.foldl Machine.exec (clobber later)).eip =
        (restorer.foldl Machine.exec (clobber first)).eip ∧
      (restorer.foldl Machine.exec (clobber later)).eip ≠ laterTrap.eip + 3 :=
  ⟨rfl, clobber_call _, by decide, by decide⟩

end Xv6
