/-
**The process table of `proc.c` and the operations on it.**

`Ptable ι` is the table together with the current process of every CPU in `ι`. An event is one
critical section under `ptable.lock`, or one store of `fork` outside it, by the process that is
current on a CPU; what a process does next when it is scheduled again is its `task`. Any event may
follow any other, on any CPU, so `step` has every interleaving of the code, and some more:
`scheduler` and the first thing the chosen process does are two events here.

The state has three things that the source does not have: `created` and `history` of the system, and
the `ghost` of a process. No operation looks at them.
-/

import Xv6.Param
import Xv6.Lib.Run

namespace Xv6

open Lib Function

/-- A `struct proc *`: an entry of `ptable.proc`. -/
abbrev Pslot := Fin NPROC

/-- `enum procstate`. -/
inductive ProcState
  | UNUSED | EMBRYO | SLEEPING | RUNNABLE | RUNNING | ZOMBIE
  deriving DecidableEq

/-- What a process sleeps on: the address of a process, or another one. -/
inductive Chan
  | proc (p : Pslot)
  | other (addr : BitVec 32)
  deriving DecidableEq

/-- Where a process goes on in the kernel. -/
inductive Task
  /-- At no place of the ones below. -/
  | user
  /-- In `fork`, with a process from `allocproc` that has no parent yet. -/
  | forking (np : Pslot)
  /-- In `fork`, behind `np->parent = proc`. -/
  | copied (np : Pslot)
  /-- In the loop of `wait`. -/
  | waiting
  deriving DecidableEq

/-- What a process did with its handlers, and what was done to it. -/
structure Ghost where
  /-- `kill` was called with its pid since that was assigned. -/
  named : Bool
  /-- The elements of `handler` that it stored to since it was created or last replaced its image,
  with the values stored. -/
  registered : List (Fin 257 × BitVec 32)

/-- `struct proc`, but for its memory, stack, files and name. `task` and `inSleep` stand for the
saved `context`: `inSleep` says that the process gave up the CPU in `sleep`. -/
structure Proc where
  state : ProcState
  pid : BitVec 32
  parent : Option Pslot
  chan : Option Chan
  killed : Bool
  handler : Fin 257 → BitVec 32
  task : Task
  inSleep : Bool
  ghost : Ghost

/-- The process sleeps on `chan`. -/
def Proc.SleepsOn (p : Proc) (chan : Chan) : Prop := p.state = .SLEEPING ∧ p.chan = some chan

/-- An entry of the zeroed table. -/
def Proc.zero : Proc := ⟨.UNUSED, 0, none, none, false, fun _ => 0, .user, false, ⟨false, []⟩⟩

/-- What becomes known of processes, by their pids. -/
inductive Happening
  /-- `fork` returned `child` to `parent`. -/
  | forked (parent child : BitVec 32)
  /-- The process became a `ZOMBIE`. -/
  | exited (pid : BitVec 32)
  /-- `wait` returned `child` to `parent`. -/
  | waited (parent child : BitVec 32)
  deriving DecidableEq

/-- `ptable.proc`, `nextpid`, and `proc` of every CPU. -/
structure Ptable (ι : Type) where
  proc : Pslot → Proc
  nextpid : BitVec 32
  cpu : ι → Option Pslot
  /-- How often `allocproc` took a process. -/
  created : Nat
  /-- What happened so far, the last thing first. -/
  history : List Happening

/-- What ends a run. -/
inductive ProcStop
  /-- The event cannot happen in this state. -/
  | disabled
  /-- `panic("init exiting")`. -/
  | initExiting
  /-- `sys_signal` stores outside the table of its process. -/
  | wildStore
  deriving DecidableEq

/-- The event happens if `enabled` holds. -/
def when {σ : Type} (enabled : Prop) [Decidable enabled] (t : σ) : Except ProcStop σ :=
  if enabled then .ok t else .error .disabled

theorem when_eq_ok {σ : Type} {enabled : Prop} [Decidable enabled] {s t : σ} :
    when enabled s = .ok t ↔ enabled ∧ s = t := by
  unfold when
  split <;> simp_all

namespace Ptable

variable {ι : Type}

/-- One entry of the table replaced. -/
def setProc (s : Ptable ι) (i : Pslot) (p : Proc) : Ptable ι :=
  { s with proc := update s.proc i p }

/-- What happened becomes part of the history. -/
def record (s : Ptable ι) (h : Happening) : Ptable ι := { s with history := h :: s.history }

section Entry

variable (s : Ptable ι) (i j : Pslot) (p : Proc)

@[simp, grind =] theorem setProc_proc : (s.setProc i p).proc j = if j = i then p else s.proc j :=
  update_apply ..

@[simp, grind =] theorem setProc_nextpid : (s.setProc i p).nextpid = s.nextpid := rfl

@[simp, grind =] theorem setProc_cpu (c : ι) : (s.setProc i p).cpu c = s.cpu c := rfl

@[simp, grind =] theorem setProc_created : (s.setProc i p).created = s.created := rfl

@[simp, grind =] theorem setProc_history : (s.setProc i p).history = s.history := rfl

end Entry

@[simp, grind =] theorem record_proc (s : Ptable ι) (h : Happening) (j : Pslot) :
    (s.record h).proc j = s.proc j := rfl

@[simp, grind =] theorem record_cpu (s : Ptable ι) (h : Happening) (c : ι) :
    (s.record h).cpu c = s.cpu c := rfl

/-- The CPU gives up its process. -/
def sched [DecidableEq ι] (s : Ptable ι) (c : ι) : Ptable ι :=
  { s with cpu := update s.cpu c none }

@[simp, grind =] theorem sched_proc [DecidableEq ι] (s : Ptable ι) (c : ι) (j : Pslot) :
    (s.sched c).proc j = s.proc j := rfl

@[simp, grind =] theorem sched_cpu [DecidableEq ι] (s : Ptable ι) (c d : ι) :
    (s.sched c).cpu d = if d = c then none else s.cpu d := update_apply ..

/-! ### `allocproc`, `userinit` and `fork` -/

/-- The first `UNUSED` entry. -/
def unusedProc (s : Ptable ι) : Option Pslot :=
  (List.finRange NPROC).find? fun i => decide ((s.proc i).state = .UNUSED)

/-- The entry that `allocproc` makes of an `UNUSED` one: all handlers but the restorer are reset. -/
def embryo (s : Ptable ι) (np : Pslot) : Proc :=
  { s.proc np with
    state := .EMBRYO
    pid := s.nextpid
    handler := fun k => if k.val < 256 then -1 else (s.proc np).handler k
    task := .user
    inSleep := false
    ghost := ⟨false, []⟩ }

/-- `allocproc`, up to `kalloc`, for the `UNUSED` entry it finds. -/
def allocproc (s : Ptable ι) (np : Pslot) : Ptable ι :=
  { s.setProc np (s.embryo np) with nextpid := s.nextpid + 1, created := s.created + 1 }

@[simp, grind =] theorem allocproc_proc (s : Ptable ι) (np j : Pslot) :
    (s.allocproc np).proc j = if j = np then s.embryo np else s.proc j := update_apply ..

@[simp, grind =] theorem allocproc_cpu (s : Ptable ι) (np : Pslot) (c : ι) :
    (s.allocproc np).cpu c = s.cpu c := rfl

/-- `fork` calls `allocproc`. -/
def fork (s : Ptable ι) (i : Pslot) : Ptable ι :=
  match s.unusedProc with
  | none => s
  | some np =>
    let s := s.allocproc np
    s.setProc i { s.proc i with task := .forking np }

/-- `kalloc` or `copyuvm` failed. -/
def forkFail (s : Ptable ι) (i np : Pslot) : Ptable ι :=
  let s := s.setProc np { s.proc np with state := .UNUSED }
  s.setProc i { s.proc i with task := .user }

/-- `np->parent = proc`. -/
def forkCopy (s : Ptable ι) (i np : Pslot) : Ptable ι :=
  let s := s.setProc np { s.proc np with parent := some i }
  s.setProc i { s.proc i with task := .copied np }

/-- `np->state = RUNNABLE`, and `fork` returns. -/
def forkReturn (s : Ptable ι) (i np : Pslot) : Ptable ι :=
  let s := s.setProc np { s.proc np with state := .RUNNABLE }
  let s := s.setProc i { s.proc i with task := .user }
  s.record (.forked (s.proc i).pid (s.proc np).pid)

/-- The system before `userinit`. -/
def zero : Ptable ι := ⟨fun _ => .zero, 1, fun _ => none, 0, []⟩

/-- The system after `userinit`. -/
def userinit : Ptable ι :=
  let s := (zero : Ptable ι).allocproc initproc
  s.setProc initproc { s.proc initproc with state := .RUNNABLE }

/-! ### `scheduler`, `yield`, `sleep` and `wakeup` -/

/-- The process goes on where it called `sched`; in `sleep`, that tidies up `chan`. -/
def resumed (p : Proc) : Proc :=
  if p.inSleep then { p with state := .RUNNING, chan := none, inSleep := false }
  else { p with state := .RUNNING }

/-- `scheduler` on CPU `c` switches to `i`. -/
def scheduler [DecidableEq ι] (s : Ptable ι) (c : ι) (i : Pslot) : Ptable ι :=
  { s.setProc i (resumed (s.proc i)) with cpu := update s.cpu c (some i) }

@[simp, grind =] theorem scheduler_proc [DecidableEq ι] (s : Ptable ι) (c : ι) (i j : Pslot) :
    (s.scheduler c i).proc j = if j = i then resumed (s.proc i) else s.proc j :=
  update_apply ..

@[simp, grind =] theorem scheduler_cpu [DecidableEq ι] (s : Ptable ι) (c d : ι) (i : Pslot) :
    (s.scheduler c i).cpu d = if d = c then some i else s.cpu d := update_apply ..

/-- `yield`. -/
def yield [DecidableEq ι] (s : Ptable ι) (c : ι) (i : Pslot) : Ptable ι :=
  (s.setProc i { s.proc i with state := .RUNNABLE }).sched c

/-- `sleep`. -/
def sleep [DecidableEq ι] (s : Ptable ι) (c : ι) (i : Pslot) (chan : Chan) : Ptable ι :=
  (s.setProc i { s.proc i with chan := some chan, inSleep := true, state := .SLEEPING }).sched c

/-- `wakeup1`, for one process. -/
def wake (chan : Option Chan) (p : Proc) : Proc :=
  if p.state = .SLEEPING ∧ p.chan = chan then { p with state := .RUNNABLE } else p

/-- `wakeup1`. -/
def wakeup1 (s : Ptable ι) (chan : Option Chan) : Ptable ι :=
  { s with proc := fun j => wake chan (s.proc j) }

@[simp, grind =] theorem wakeup1_proc (s : Ptable ι) (chan : Option Chan) (j : Pslot) :
    (s.wakeup1 chan).proc j = wake chan (s.proc j) := rfl

@[simp, grind =] theorem wakeup1_cpu (s : Ptable ι) (chan : Option Chan) (c : ι) :
    (s.wakeup1 chan).cpu c = s.cpu c := rfl

/-! ### `exit`, `wait` and `kill` -/

/-- `exit` passes the children of `i` on to init. -/
def abandon (s : Ptable ι) (i : Pslot) : Ptable ι :=
  { s with
    proc := fun j => if (s.proc j).parent = some i then { s.proc j with parent := some initproc }
      else s.proc j }

@[simp, grind =] theorem abandon_proc (s : Ptable ι) (i j : Pslot) :
    (s.abandon i).proc j =
      if (s.proc j).parent = some i then { s.proc j with parent := some initproc } else s.proc j :=
  rfl

@[simp, grind =] theorem abandon_cpu (s : Ptable ι) (i : Pslot) (c : ι) :
    (s.abandon i).cpu c = s.cpu c := rfl

/-- Some child of `i` is a `ZOMBIE`. -/
def zombieChild (s : Ptable ι) (i : Pslot) : Option Pslot :=
  (List.finRange NPROC).find? fun j =>
    decide ((s.proc j).parent = some i ∧ (s.proc j).state = .ZOMBIE)

/-- The critical section of `exit`. Waking init before the loop or in it is the same. -/
def exit [DecidableEq ι] (s : Ptable ι) (c : ι) (i : Pslot) : Ptable ι :=
  let woken := s.wakeup1 ((s.proc i).parent.map .proc)
  let woken := if (s.zombieChild i).isSome then woken.wakeup1 (some (.proc initproc)) else woken
  let s := woken.abandon i
  let s := s.setProc i { s.proc i with state := .ZOMBIE }
  (s.record (.exited (s.proc i).pid)).sched c

/-- `wait` frees a child that exited. -/
def reap (s : Ptable ι) (i z : Pslot) : Ptable ι :=
  let s := s.record (.waited (s.proc i).pid (s.proc z).pid)
  let s := s.setProc z { s.proc z with state := .UNUSED, pid := 0, parent := none, killed := false }
  s.setProc i { s.proc i with task := .user }

/-- One round of the loop of `wait`. -/
def wait [DecidableEq ι] (s : Ptable ι) (c : ι) (i : Pslot) : Ptable ι :=
  match s.zombieChild i with
  | some z => s.reap i z
  | none =>
    let havekids := (List.finRange NPROC).any fun j => decide ((s.proc j).parent = some i)
    if havekids = false ∨ (s.proc i).killed then s.setProc i { s.proc i with task := .user }
    else (s.setProc i { s.proc i with task := .waiting }).sleep c i (.proc i)

/-- The process that `kill` stops at. -/
def killTarget (s : Ptable ι) (pid : BitVec 32) : Option Pslot :=
  (List.finRange NPROC).find? fun i => decide ((s.proc i).pid = pid)

/-- What `kill` does to that process. -/
def killed (p : Proc) : Proc :=
  { p with killed := true, state := if p.state = .SLEEPING then .RUNNABLE else p.state }

/-- `kill`. -/
def kill (s : Ptable ι) (pid : BitVec 32) : Int × Ptable ι :=
  match s.killTarget pid with
  | none => (-1, s)
  | some i => (0, s.setProc i (killed (s.proc i)))

/-- `kill` was called with this pid. -/
def noteKill (s : Ptable ι) (pid : BitVec 32) : Ptable ι :=
  { s with proc := fun j =>
      if (s.proc j).pid = pid then
        { s.proc j with ghost := { (s.proc j).ghost with named := true } }
      else s.proc j }

/-! ### Handlers and images -/

/-- `proc->handler[index] = handler`. -/
def storeHandler (s : Ptable ι) (i : Pslot) (index : Fin 257) (handler : BitVec 32) : Ptable ι :=
  s.setProc i { s.proc i with
    handler := update (s.proc i).handler index handler
    ghost :=
      { (s.proc i).ghost with registered := (index, handler) :: (s.proc i).ghost.registered } }

/-- `sys_signal`, for an element of the process's own table; the address of `handler[signum]`
wraps. -/
def sysSignal (s : Ptable ι) (i : Pslot) (signum handler : BitVec 32) :
    Except ProcStop (Ptable ι) :=
  if signum = -1 then .ok (s.storeHandler i ⟨256, by decide⟩ handler)
  else if inside : signum.toNat % 2 ^ 30 < 257 then
    .ok (s.storeHandler i ⟨signum.toNat % 2 ^ 30, inside⟩ handler)
  else .error .wildStore

/-- `exec` that succeeds: the image is replaced, the handlers stay. -/
def exec (s : Ptable ι) (i : Pslot) : Ptable ι :=
  s.setProc i { s.proc i with ghost := { (s.proc i).ghost with registered := [] } }

/-- A `T_DIVIDE` trap: a process without a handler is killed. -/
def divide (s : Ptable ι) (i : Pslot) : Ptable ι :=
  if (s.proc i).handler 0 ≠ -1 then s else s.setProc i { s.proc i with killed := true }

end Ptable

/-! ### Runs -/

/-- What the current process of a CPU does. -/
inductive ProcOp
  | fork
  | forkFail
  | forkCopy
  | forkReturn
  | exit
  | wait
  | yield
  | sleep (chan : Chan)
  | kill (pid : BitVec 32)
  | signal (signum handler : BitVec 32)
  | exec
  | divide
  deriving DecidableEq

inductive ProcEvent (ι : Type)
  /-- The scheduler of CPU `c` chooses a process. -/
  | scheduler (c : ι) (i : Pslot)
  /-- Some process or interrupt handler calls `wakeup`. -/
  | wakeup (chan : Option Chan)
  /-- The current process of CPU `c` does something. -/
  | call (c : ι) (op : ProcOp)

namespace Ptable

variable {ι : Type} [DecidableEq ι]

/-- Process `i` begins a call. -/
def begin (s : Ptable ι) (i : Pslot) (call : Except ProcStop (Ptable ι)) :
    Except ProcStop (Ptable ι) :=
  if (s.proc i).task = .user then call else .error .disabled

/-- What process `i`, current on `c`, does. -/
def call (s : Ptable ι) (c : ι) (i : Pslot) : ProcOp → Except ProcStop (Ptable ι)
  | .fork => s.begin i (.ok (s.fork i))
  | .forkFail =>
    match (s.proc i).task with
    | .forking np => .ok (s.forkFail i np)
    | _ => .error .disabled
  | .forkCopy =>
    match (s.proc i).task with
    | .forking np => .ok (s.forkCopy i np)
    | _ => .error .disabled
  | .forkReturn =>
    match (s.proc i).task with
    | .copied np => .ok (s.forkReturn i np)
    | _ => .error .disabled
  | .exit => s.begin i (if i = initproc then .error .initExiting else .ok (s.exit c i))
  | .wait => if (s.proc i).task = .waiting then .ok (s.wait c i) else s.begin i (.ok (s.wait c i))
  | .yield => .ok (s.yield c i)
  | .sleep chan => .ok (s.sleep c i chan)
  | .kill pid => s.begin i (.ok ((s.kill pid).2.noteKill pid))
  | .signal signum handler => s.begin i (s.sysSignal i signum handler)
  | .exec => s.begin i (.ok (s.exec i))
  | .divide => s.begin i (.ok (s.divide i))

def step (s : Ptable ι) : ProcEvent ι → Except ProcStop (Ptable ι)
  | .scheduler c i =>
    if s.cpu c = none ∧ (s.proc i).state = .RUNNABLE then .ok (s.scheduler c i)
    else .error .disabled
  | .wakeup chan => .ok (s.wakeup1 chan)
  | .call c op =>
    match s.cpu c with
    | none => .error .disabled
    | some i => s.call c i op

end Ptable

end Xv6
