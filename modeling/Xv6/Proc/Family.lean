/-
**Moves of the process table, and what they keep.**

What a critical section can do to the states, pids, parents and CPUs of the table is said once, in
`Move`. Each of the facts here is kept by every move: where processes run, the children that
processes in `fork` hold, and who is the parent of whom.
-/

import Xv6.Proc.Table
import Mathlib.Logic.Relation

namespace Xv6

open Lib

/-- The process exists and has not exited. -/
@[grind] def ProcState.Active (st : ProcState) : Prop :=
  st = .RUNNABLE ∨ st = .RUNNING ∨ st = .SLEEPING

/-- The child of a process in `fork`. -/
@[grind] def Task.child : Task → Option Pslot
  | .forking np => some np
  | .copied np => some np
  | _ => none

/-- The child of a process in `fork` has its parent. -/
@[grind] def Task.linked : Task → Bool
  | .copied _ => true
  | _ => false

theorem Task.linked_of_child {t : Task} (outside : t.child = none) : t.linked = false := by
  cases t with
  | copied np => cases outside
  | _ => rfl

namespace Ptable

variable {ι : Type} {s t : Ptable ι}

/-! ### Moves -/

/-- Nothing changes but that sleeping processes become `RUNNABLE`. -/
structure Nudged (s t : Ptable ι) : Prop where
  nextpid : t.nextpid = s.nextpid
  cpu : ∀ c, t.cpu c = s.cpu c
  created : t.created = s.created
  history : t.history = s.history
  pid : ∀ i, (t.proc i).pid = (s.proc i).pid
  parent : ∀ i, (t.proc i).parent = (s.proc i).parent
  state : ∀ i, (t.proc i).state = (s.proc i).state ∨
    (s.proc i).state = .SLEEPING ∧ (t.proc i).state = .RUNNABLE
  child : ∀ i, (t.proc i).task.child = (s.proc i).task.child
  linked : ∀ i, (t.proc i).task.linked = (s.proc i).task.linked

theorem Nudged.refl (s : Ptable ι) : s.Nudged s := by
  constructor <;> simp

theorem Nudged.trans {u : Ptable ι} (first : s.Nudged t) (second : t.Nudged u) : s.Nudged u := by
  obtain ⟨next, cpu, created, history, pid, parent, state, child, linked⟩ := first
  obtain ⟨next', cpu', created', history', pid', parent', state', child', linked'⟩ := second
  constructor <;> grind

theorem nudged_setProc {i : Pslot} {p : Proc} (state : p.state = (s.proc i).state)
    (pid : p.pid = (s.proc i).pid) (parent : p.parent = (s.proc i).parent)
    (child : p.task.child = (s.proc i).task.child)
    (linked : p.task.linked = (s.proc i).task.linked) : s.Nudged (s.setProc i p) := by
  constructor <;> grind

variable [DecidableEq ι]

/-- **What one critical section does** to the life cycle, with what is known of the processes it is
about. -/
inductive Move (s : Ptable ι) : Ptable ι → Prop
  | nudge {t : Ptable ι} (n : s.Nudged t) : Move s t
  | run {c : ι} {i : Pslot} (idle : s.cpu c = none) (runnable : (s.proc i).state = .RUNNABLE) :
      Move s (s.scheduler c i)
  | giveUp {c : ι} {i : Pslot} {p : Proc} (current : s.cpu c = some i)
      (running : (s.proc i).state = .RUNNING) (state : p.state = .RUNNABLE ∨ p.state = .SLEEPING)
      (pid : p.pid = (s.proc i).pid) (parent : p.parent = (s.proc i).parent)
      (child : p.task.child = (s.proc i).task.child)
      (linked : p.task.linked = (s.proc i).task.linked) :
      Move s ((s.setProc i p).sched c)
  | create {i np : Pslot} {p : Proc} (running : (s.proc i).state = .RUNNING)
      (user : (s.proc i).task = .user) (unused : (s.proc np).state = .UNUSED)
      (entry : p = { s.proc i with task := .forking np }) : Move s ((s.allocproc np).setProc i p)
  | fail {i np : Pslot} (running : (s.proc i).state = .RUNNING)
      (task : (s.proc i).task = .forking np) (embryo : (s.proc np).state = .EMBRYO)
      (orphan : (s.proc np).parent = none) : Move s (s.forkFail i np)
  | copy {i np : Pslot} (running : (s.proc i).state = .RUNNING)
      (task : (s.proc i).task = .forking np) (embryo : (s.proc np).state = .EMBRYO)
      (orphan : (s.proc np).parent = none) : Move s (s.forkCopy i np)
  | start {i np : Pslot} (running : (s.proc i).state = .RUNNING)
      (task : (s.proc i).task = .copied np) (embryo : (s.proc np).state = .EMBRYO)
      (child : (s.proc np).parent = some i) : Move s (s.forkReturn i np)
  | exit {c : ι} {i : Pslot} {p : Proc} (current : s.cpu c = some i)
      (running : (s.proc i).state = .RUNNING) (user : (s.proc i).task = .user)
        (other : i ≠ initproc)
      (noEmbryo : ∀ j, (s.proc j).parent = some i → (s.proc j).state ≠ .EMBRYO)
      (entry : p = { (s.abandon i).proc i with state := .ZOMBIE }) :
      Move s ((((s.abandon i).setProc i p).record (.exited (s.proc i).pid)).sched c)
  | reap {i z : Pslot} (running : (s.proc i).state = .RUNNING)
      (user : (s.proc i).task.child = none) (child : (s.proc z).parent = some i)
      (zombie : (s.proc z).state = .ZOMBIE) : Move s (s.reap i z)

omit [DecidableEq ι] in
theorem create_entries {i np : Pslot} {p : Proc} (running : (s.proc i).state = .RUNNING)
    (unused : (s.proc np).state = .UNUSED) (entry : p = { s.proc i with task := .forking np })
    (j : Pslot) :
    let t := (s.allocproc np).setProc i p
    (t.proc j).pid = (if j = np then s.nextpid else (s.proc j).pid) ∧
      (t.proc j).state = (if j = np then .EMBRYO else (s.proc j).state) ∧
      (t.proc j).parent = (s.proc j).parent := by
  grind [Ptable.embryo]

/-! ### Where processes run -/

/-- A process is `RUNNING` exactly while it is the current process of a CPU, of one only. -/
structure Placed (s : Ptable ι) : Prop where
  current : ∀ c i, s.cpu c = some i → (s.proc i).state = .RUNNING
  running : ∀ i, (s.proc i).state = .RUNNING → ∃ c, s.cpu c = some i
  alone : ∀ c d i, s.cpu c = some i → s.cpu d = some i → c = d

omit [DecidableEq ι] in
theorem Placed.congr (placed : s.Placed) (cpu : ∀ c, t.cpu c = s.cpu c)
    (state : ∀ i, (t.proc i).state = .RUNNING ↔ (s.proc i).state = .RUNNING) : t.Placed where
  current c i at' := (state i).mpr (placed.current c i (cpu c ▸ at'))
  running i run := by
    obtain ⟨c, at'⟩ := placed.running i ((state i).mp run)
    exact ⟨c, (cpu c).trans at'⟩
  alone c d i first second := placed.alone c d i (cpu c ▸ first) (cpu d ▸ second)

theorem Placed.leave (placed : s.Placed) {c : ι} {i : Pslot} (current : s.cpu c = some i)
    (cpu : ∀ d, t.cpu d = if d = c then none else s.cpu d) (off : (t.proc i).state ≠ .RUNNING)
    (same : ∀ j, j ≠ i → (t.proc j).state = (s.proc j).state) : t.Placed := by
  obtain ⟨current', running, alone⟩ := placed
  constructor
  · grind
  · intro j run
    obtain ⟨d, at'⟩ := running j (by grind)
    exact ⟨d, by grind⟩
  · grind

theorem Placed.move (placed : s.Placed) (m : s.Move t) : t.Placed := by
  cases m with
  | nudge n =>
    have state := n.state
    exact placed.congr n.cpu (by grind)
  | @run c i idle runnable =>
    obtain ⟨current, running, alone⟩ := placed
    constructor
    · grind [resumed]
    · intro j run
      by_cases same : j = i
      · exact ⟨c, by grind⟩
      · obtain ⟨d, at'⟩ := running j (by grind)
        exact ⟨d, by grind⟩
    · grind
  | giveUp current running state => exact placed.leave current (by simp) (by grind) (by grind)
  | create running user unused entry => exact placed.congr (by simp) (by grind [Ptable.embryo])
  | fail running task embryo => exact placed.congr (by simp [forkFail]) (by grind [forkFail])
  | copy running task embryo => exact placed.congr (by simp [forkCopy]) (by grind [forkCopy])
  | start running task embryo => exact placed.congr (by simp [forkReturn]) (by grind [forkReturn])
  | exit current running user other noEmbryo entry =>
    exact placed.leave current (by simp) (by grind) (by grind)
  | reap running user child zombie =>
    exact placed.congr (by simp [Ptable.reap]) (by grind [Ptable.reap])

/-- The children that processes in `fork` hold. -/
structure Forks (s : Ptable ι) : Prop where
  active : ∀ q, (s.proc q).task.child ≠ none → (s.proc q).state.Active
  embryo : ∀ q np, (s.proc q).task.child = some np → (s.proc np).state = .EMBRYO
  holder : ∀ q r np, (s.proc q).task.child = some np → (s.proc r).task.child = some np → q = r

theorem Forks.move (forks : s.Forks) (m : s.Move t) : t.Forks := by
  obtain ⟨active, embryo', holder⟩ := forks
  cases m with
  | nudge n => 
     obtain ⟨-, -, -, -, -, -, state, child, -⟩ := n
     constructor <;> grind
  | run idle runnable => constructor <;> grind [resumed]
  | giveUp current running state => constructor <;> grind
  | create running user unused entry => constructor <;> grind [Ptable.embryo]
  | fail running task embryo orphan => constructor <;> grind [forkFail]
  | copy running task embryo orphan => constructor <;> grind [forkCopy]
  | start running task embryo child => constructor <;> grind [forkReturn]
  | exit current running user other noEmbryo entry => constructor <;> grind
  | reap running user child zombie =>  constructor <;> grind [Ptable.reap]

/-! ### Parents and children -/

/-- Only processes that have not exited are parents, and every process but init has one. -/
structure Family (s : Ptable ι) : Prop where
  init : (s.proc initproc).state.Active
  unused : ∀ i, (s.proc i).state = .UNUSED → (s.proc i).parent = none
  parent : ∀ i q, (s.proc i).parent = some q → (s.proc q).state.Active
  child : ∀ i, (s.proc i).state ≠ .UNUSED → (s.proc i).state ≠ .EMBRYO → i ≠ initproc →
    (s.proc i).parent ≠ none

theorem Family.move (family : s.Family) (m : s.Move t) : t.Family := by
  obtain ⟨init, unused', parent, child'⟩ := family
  cases m with
  | nudge n => 
     obtain ⟨-, -, -, -, -, parent', state, -, -⟩ := n
     constructor <;> grind
  | run idle runnable => constructor <;> grind [resumed]
  | giveUp current running state => constructor <;> grind
  | create running user unused entry => constructor <;> grind [Ptable.embryo]
  | fail running task embryo orphan => constructor <;> grind [forkFail]
  | copy running task embryo orphan => constructor <;> grind [forkCopy]
  | start running task embryo child => constructor <;> grind [forkReturn]
  | exit current running user other noEmbryo entry => constructor <;> grind
  | reap running user child zombie =>  constructor <;> grind [Ptable.reap]

/-- An embryo has the process that creates it as its parent once `fork` said so, and none before. -/
def Linked (s : Ptable ι) : Prop :=
  ∀ q np, (s.proc q).task.child = some np →
    (s.proc np).parent = if (s.proc q).task.linked then some q else none

theorem Linked.move (linked : s.Linked) (forks : s.Forks) (family : s.Family) (m : s.Move t) :
    t.Linked := by
  obtain ⟨active, embryo', holder⟩ := forks
  have orphan' := family.unused
  unfold Linked at linked ⊢
  cases m with
  | nudge n =>
    obtain ⟨-, -, -, -, -, parent, -, child, linked'⟩ := n
    grind
  | run idle runnable => grind [resumed]
  | giveUp current running state => grind
  | create running user unused entry => grind [Ptable.embryo]
  | fail running task embryo orphan => grind [forkFail]
  | copy running task embryo orphan => grind [forkCopy]
  | start running task embryo child => grind [forkReturn]
  | exit current running user other noEmbryo entry => grind
  | reap running user child zombie => grind [Ptable.reap]

/-- An embryo with a parent is held by it. -/
def Claimed (s : Ptable ι) : Prop :=
  ∀ i q, (s.proc i).state = .EMBRYO → (s.proc i).parent = some q → (s.proc q).task.child = some i

theorem Claimed.move (claimed : s.Claimed) (family : s.Family) (m : s.Move t) : t.Claimed := by
  have orphan' := family.unused
  have active := family.parent
  unfold Claimed at claimed ⊢
  cases m with
  | nudge n =>
    obtain ⟨-, -, -, -, -, parent, state, child, -⟩ := n
    grind
  | run idle runnable => grind [resumed]
  | giveUp current running state => grind
  | create running user unused entry => grind [Ptable.embryo]
  | fail running task embryo orphan => grind [forkFail]
  | copy running task embryo orphan => grind [forkCopy]
  | start running task embryo child => grind [forkReturn]
  | exit current running user other noEmbryo entry => grind
  | reap running user child zombie => grind [Ptable.reap]

/-! ### Events are moves -/

/-- **What holds of the table in every state**, however many processes were created. -/
structure Shaped (s : Ptable ι) : Prop where
  placed : s.Placed
  forks : s.Forks
  family : s.Family
  linked : s.Linked
  claimed : s.Claimed

theorem Shaped.move (shaped : s.Shaped) (m : s.Move t) : t.Shaped where
  placed := shaped.placed.move m
  forks := shaped.forks.move m
  family := shaped.family.move m
  linked := shaped.linked.move shaped.forks shaped.family m
  claimed := shaped.claimed.move shaped.family m

/-- Some moves, one after the other. -/
abbrev Moves (s t : Ptable ι) : Prop := Relation.ReflTransGen Move s t

theorem Shaped.moves (shaped : s.Shaped) (m : s.Moves t) : t.Shaped := by
  induction m with
  | refl => exact shaped
  | tail _ last ih => exact ih.move last

omit [DecidableEq ι] in
theorem nudged_wakeup1 (s : Ptable ι) (chan : Option Chan) : s.Nudged (s.wakeup1 chan) := by
  constructor <;> grind [wakeup1, wake]

omit [DecidableEq ι] in
theorem nudged_kill (s : Ptable ι) (pid : BitVec 32) : s.Nudged ((s.kill pid).2.noteKill pid) := by
  unfold kill noteKill
  split
  · constructor <;> grind
  · constructor <;> grind [killed]

omit [DecidableEq ι] in
theorem nudged_sysSignal {i : Pslot} {signum handler : BitVec 32}
    (done : s.sysSignal i signum handler = .ok t) : s.Nudged t := by
  unfold sysSignal storeHandler at done
  split at done
  · cases done
    exact nudged_setProc rfl rfl rfl rfl rfl
  · split at done <;> cases done
    exact nudged_setProc rfl rfl rfl rfl rfl

omit [DecidableEq ι] in
theorem nudged_divide (s : Ptable ι) (i : Pslot) : s.Nudged (s.divide i) := by
  unfold Ptable.divide
  split
  · exact .refl s
  · exact nudged_setProc rfl rfl rfl rfl rfl

omit [DecidableEq ι] in
theorem begin_eq_ok {i : Pslot} {call : Except ProcStop (Ptable ι)} :
    s.begin i call = .ok t ↔ (s.proc i).task = .user ∧ call = .ok t := by
  unfold Ptable.begin
  split <;> simp [*]

omit [DecidableEq ι] in
theorem unusedProc_spec {np : Pslot} (found : s.unusedProc = some np) :
    (s.proc np).state = .UNUSED := by
  have := List.find?_some found
  exact of_decide_eq_true this

omit [DecidableEq ι] in
theorem zombieChild_spec {i z : Pslot} (found : s.zombieChild i = some z) :
    (s.proc z).parent = some i ∧ (s.proc z).state = .ZOMBIE := by
  have := List.find?_some found
  exact of_decide_eq_true this

theorem moves_fork {i : Pslot} (running : (s.proc i).state = .RUNNING)
    (user : (s.proc i).task = .user) : s.Moves (s.fork i) := by
  rw [Ptable.fork]
  cases found : s.unusedProc with
  | none => exact .refl
  | some np =>
    have unused := unusedProc_spec found
    have other : i ≠ np := by grind
    refine .single (.create running user unused ?_)
    rw [allocproc_proc, if_neg other]

theorem moves_wait {c : ι} {i : Pslot} (current : s.cpu c = some i)
    (running : (s.proc i).state = .RUNNING) (outside : (s.proc i).task.child = none) :
    s.Moves (s.wait c i) := by
  have unlinked := Task.linked_of_child outside
  rw [Ptable.wait]
  cases found : s.zombieChild i with
  | some z =>
    obtain ⟨child, zombie⟩ := zombieChild_spec found
    exact .single (.reap running outside child zombie)
  | none =>
    dsimp only
    split
    · exact .single (.nudge (nudged_setProc rfl rfl rfl outside.symm unlinked.symm))
    · have nudged : s.Nudged (s.setProc i { s.proc i with task := .waiting }) :=
        nudged_setProc rfl rfl rfl outside.symm unlinked.symm
      refine .tail (.single (.nudge nudged)) ?_
      refine .giveUp current ?_ (.inr rfl) rfl rfl rfl rfl
      rw [setProc_proc, if_pos rfl]
      exact running

theorem exit_eq (s : Ptable ι) (c : ι) (i : Pslot) : ∃ u : Ptable ι, s.Nudged u ∧
    (u.proc i).task = (s.proc i).task ∧
    s.exit c i = (((u.abandon i).setProc i { (u.abandon i).proc i with state := .ZOMBIE }).record
      (.exited (u.proc i).pid)).sched c := by
  have woken := nudged_wakeup1 s ((s.proc i).parent.map .proc)
  rw [Ptable.exit]
  split
  · refine ⟨_, woken.trans (nudged_wakeup1 _ (some (.proc initproc))), by grind [wake], ?_⟩
    rw [setProc_proc, if_pos rfl, abandon_proc]
    split <;> rfl
  · refine ⟨_, woken, by grind [wake], ?_⟩
    rw [setProc_proc, if_pos rfl, abandon_proc]
    split <;> rfl

theorem Shaped.moves_exit (shaped : s.Shaped) {c : ι} {i : Pslot} (current : s.cpu c = some i)
    (user : (s.proc i).task = .user) (other : i ≠ initproc) : s.Moves (s.exit c i) := by
  obtain ⟨u, nudged, task, result⟩ := exit_eq s c i
  rw [result]
  have woken := shaped.move (.nudge nudged)
  have current' : u.cpu c = some i := (nudged.cpu c).trans current
  have noEmbryo : ∀ j, (u.proc j).parent = some i → (u.proc j).state ≠ .EMBRYO := by
    intro j child embryo
    have held := woken.claimed j i embryo child
    rw [task, user] at held
    cases held
  have running := woken.placed.current c i current'
  exact .tail (.single (.nudge nudged))
    (.exit current' running (task.trans user) other noEmbryo rfl)

theorem Shaped.moves_call (shaped : s.Shaped) {c : ι} {i : Pslot} {op : ProcOp}
    (current : s.cpu c = some i) (done : s.call c i op = .ok t) : s.Moves t := by
  have running := shaped.placed.current c i current
  have embryo := fun np => shaped.forks.embryo i np
  have linked := fun np => shaped.linked i np
  cases op with
  | fork =>
    obtain ⟨user, done⟩ := begin_eq_ok.mp done
    cases done
    exact moves_fork running user
  | forkFail =>
    rw [Ptable.call] at done
    split at done <;> cases done
    next np task => exact .single (.fail running task (embryo np (by grind)) (by grind))
  | forkCopy =>
    rw [Ptable.call] at done
    split at done <;> cases done
    next np task => exact .single (.copy running task (embryo np (by grind)) (by grind))
  | forkReturn =>
    rw [Ptable.call] at done
    split at done <;> cases done
    next np task => exact .single (.start running task (embryo np (by grind)) (by grind))
  | exit =>
    obtain ⟨user, done⟩ := begin_eq_ok.mp done
    split at done <;> cases done
    next other => exact shaped.moves_exit current user other
  | wait =>
    rw [Ptable.call] at done
    split at done
    next waiting =>
      cases done
      exact moves_wait current running (by rw [waiting]; rfl)
    next =>
      obtain ⟨user, done⟩ := begin_eq_ok.mp done
      cases done
      exact moves_wait current running (by rw [user]; rfl)
  | yield =>
    cases done
    exact .single (.giveUp current running (.inl rfl) rfl rfl rfl rfl)
  | sleep chan =>
    cases done
    exact .single (.giveUp current running (.inr rfl) rfl rfl rfl rfl)
  | kill pid =>
    obtain ⟨user, done⟩ := begin_eq_ok.mp done
    cases done
    exact .single (.nudge (nudged_kill s pid))
  | signal signum handler =>
    obtain ⟨user, done⟩ := begin_eq_ok.mp done
    exact .single (.nudge (nudged_sysSignal done))
  | exec =>
    obtain ⟨user, done⟩ := begin_eq_ok.mp done
    cases done
    exact .single (.nudge (nudged_setProc rfl rfl rfl rfl rfl))
  | divide =>
    obtain ⟨user, done⟩ := begin_eq_ok.mp done
    cases done
    exact .single (.nudge (nudged_divide s i))

theorem Shaped.moves_step (shaped : s.Shaped) {e : ProcEvent ι} (done : s.step e = .ok t) :
    s.Moves t := by
  cases e with
  | scheduler c i =>
    rw [Ptable.step] at done
    split at done <;> cases done
    next enabled => exact .single (.run enabled.1 enabled.2)
  | wakeup chan =>
    cases done
    exact .single (.nudge (nudged_wakeup1 s chan))
  | call c op =>
    rw [Ptable.step] at done
    cases current : s.cpu c with
    | none =>
      rw [current] at done
      cases done
    | some i =>
      rw [current] at done
      exact shaped.moves_call current done

theorem Shaped.step (shaped : s.Shaped) {e : ProcEvent ι} (done : s.step e = .ok t) : t.Shaped :=
  shaped.moves (shaped.moves_step done)

omit [DecidableEq ι] in
theorem userinit_others {j : Pslot} (other : j ≠ initproc) :
    (userinit : Ptable ι).proc j = .zero := by
  rw [Ptable.userinit, setProc_proc, if_neg other, allocproc_proc, if_neg other]
  rfl

omit [DecidableEq ι] in
theorem shaped_userinit : (userinit : Ptable ι).Shaped := by
  have others := fun j => @userinit_others ι j
  have init : ((userinit : Ptable ι).proc initproc).state = .RUNNABLE := rfl
  have parent : ((userinit : Ptable ι).proc initproc).parent = none := rfl
  have task : ((userinit : Ptable ι).proc initproc).task = .user := rfl
  have idle : ∀ c, (userinit : Ptable ι).cpu c = none := fun _ => rfl
  refine ⟨?_, ?_, ?_, ?_, ?_⟩
  · constructor <;> grind [Proc.zero]
  · constructor <;> grind [Proc.zero]
  · constructor <;> grind [Proc.zero]
  · unfold Linked
    grind [Proc.zero]
  · unfold Claimed
    grind [Proc.zero]

end Ptable

end Xv6
