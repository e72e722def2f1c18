/-
**Handlers and the programs that registered them.**

`exec` replaces the program of a process and keeps its table of handlers, and `allocproc` resets all
of a table but the restorer. So a divide trap can be delivered to an address that an earlier
program, or an earlier process of the same entry, registered. A call of `sys_signal` that stores
outside the table of its process ends the run here.
-/

import Xv6.Proc.Entry
import Xv6.Proc.Life
import Xv6.Signal.Deliver

namespace Xv6

open Lib

/-- Element 256 of the table, the restorer. -/
def restorerSlot : Fin 257 := 256

/-- The program registered what a delivery of `SIGFPE` would use. -/
def Proc.Registered (p : Proc) : Prop :=
  (SIGFPE, p.handler SIGFPE) ∈ p.ghost.registered ∧
    (restorerSlot, p.handler restorerSlot) ∈ p.ghost.registered

/-- What holds of the handlers of a process: `SIGFPE` has none, or one that was registered with a
restorer; and if some restorer was registered, then the one in the table was. -/
def Proc.Current (p : Proc) : Prop :=
  (p.handler SIGFPE ≠ -1 → p.Registered) ∧
    ∀ v, (restorerSlot, v) ∈ p.ghost.registered →
      (restorerSlot, p.handler restorerSlot) ∈ p.ghost.registered

namespace Ptable

variable {ι : Type} {s t : Ptable ι}

/-- What `trap` looks at, for a process of a given size. -/
def trapProc (s : Ptable ι) (i : Pslot) (sz : BitVec 32) : TrapProc :=
  ⟨sz, (s.proc i).killed, (s.proc i).handler⟩

/-- **Every divide trap that could happen now is delivered to what the program registered.** -/
def DeliversRegistered (s : Ptable ι) : Prop :=
  ∀ c i, s.cpu c = some i → ∀ sz tf, tf.trapno = T_DIVIDE →
    (trap (s.trapProc i sz) tf).stores ≠ [] →
      (trap (s.trapProc i sz) tf).stores = signalFrame (s.trapProc i sz) tf ∧ (s.proc i).Registered

def Current (s : Ptable ι) : Prop := ∀ i, (s.proc i).state ≠ .UNUSED → (s.proc i).Current

/-- The condition on an event: `exec` succeeds only without a handler for `SIGFPE`, and one is
registered only after a restorer. -/
def SignalOk (s : Ptable ι) : ProcEvent ι → Prop
  | .call c .exec => ∀ i, s.cpu c = some i → (s.proc i).handler SIGFPE = -1
  | .call c (.signal signum handler) => ∀ i, s.cpu c = some i → signum.toNat % 2 ^ 30 = 0 →
    handler = -1 ∨ ∃ v, (restorerSlot, v) ∈ (s.proc i).ghost.registered
  | _ => True

theorem stores_trap {p : TrapProc} {tf : TrapFrame} (divide : tf.trapno = T_DIVIDE) :
    (trap p tf).stores = if p.handler SIGFPE ≠ -1 then signalFrame p tf else [] := by
  unfold trap
  rw [if_pos divide]
  split
  · exact stores_trapTail _ _ _
  · unfold trapDefault
    split
    · rfl
    · exact stores_trapTail _ _ _

theorem deliversRegistered_iff : s.DeliversRegistered ↔
    ∀ c i, s.cpu c = some i → (s.proc i).handler SIGFPE ≠ -1 → (s.proc i).Registered := by
  constructor
  · intro delivers c i current registered
    let tf : TrapFrame := ⟨0, 0, 0, 0, 0, 0, 0, T_DIVIDE, 0, 0, 0, 0, 0⟩
    have stores : (trap (s.trapProc i 0) tf).stores = signalFrame (s.trapProc i 0) tf := by
      rw [stores_trap rfl, if_pos (show (s.trapProc i 0).handler SIGFPE ≠ -1 from registered)]
    refine (delivers c i current 0 tf rfl ?_).2
    rw [stores]
    exact List.cons_ne_nil _ _
  · intro registered c i current sz tf divide delivered
    rw [stores_trap divide] at delivered ⊢
    by_cases handler : (s.trapProc i sz).handler SIGFPE ≠ -1
    · rw [if_pos handler]
      exact ⟨rfl, registered c i current handler⟩
    · rw [if_neg handler] at delivered
      exact absurd rfl delivered

theorem current_storeHandler {i : Pslot} {index : Fin 257} {handler : BitVec 32}
    (before : (s.proc i).Current)
    (ok : index = SIGFPE → handler = -1 ∨ ∃ v, (restorerSlot, v) ∈ (s.proc i).ghost.registered) :
    ((s.storeHandler i index handler).proc i).Current := by
  have apart : SIGFPE ≠ restorerSlot := by decide
  rw [storeHandler, setProc_proc, if_pos rfl]
  grind [Proc.Current, Proc.Registered, Function.update_apply]

theorem Current.delivers (current : s.Current) (shaped : s.Shaped) : s.DeliversRegistered := by
  rw [deliversRegistered_iff]
  intro c i running registered
  have live := shaped.placed.current c i running
  exact (current i (by grind)).1 registered

variable [DecidableEq ι]

theorem Current.step (current : s.Current) (shaped : s.Shaped) {e : ProcEvent ι}
    (done : s.step e = .ok t) (ok : s.SignalOk e) : t.Current := by
  intro j live
  cases shaped.changed done j with
  | kept keeps => 
      have before := current j (by grind [Proc.Keeps])
      grind [Proc.Current, Proc.Registered, Proc.Keeps]
  | created unused entry =>
    rw [entry]
    refine ⟨fun registered => absurd rfl registered, fun v absurdity => ?_⟩
    cases absurdity
  | failed event _ task entry =>
    rw [entry] at live
    exact absurd rfl live
  | reaped unused killed => exact absurd unused live
  | @killed c pid event entry =>
    have nudged := (nudged_kill s pid).state j
    have before := current j (by grind)
    grind [Proc.Current, Proc.Registered, Ptable.kill, noteKill, killed]
  | stored event running slot entry =>
    subst event
    rw [entry]
    have live' := shaped.placed.current _ j running
    refine current_storeHandler (current j (by grind)) fun fpe => ok j running ?_
    rw [fpe] at slot
    split at slot
    · cases slot
    · exact slot.symm
  | replaced event running entry =>
    subst event
    rw [entry, Ptable.exec, setProc_proc, if_pos rfl]
    refine ⟨fun registered => absurd (ok j running) registered, fun v absurdity => ?_⟩
    cases absurdity
  | divided running entry =>
    have live' := shaped.placed.current _ j running
    have before := current j (by grind)
    rw [entry]
    exact before

theorem not_delivers {e : ProcEvent ι} (done : s.step e = .ok t)
    (bad : ¬ s.SignalOk e) : ¬ t.DeliversRegistered := by
  unfold SignalOk at bad
  rw [deliversRegistered_iff]
  intro delivers
  split at bad
  next c =>
    push Not at bad
    obtain ⟨i, current, registered⟩ := bad
    rw [Ptable.step, current] at done
    obtain ⟨user, done⟩ := begin_eq_ok.mp done
    cases done
    have left := delivers c i current (by grind [Ptable.exec])
    rw [Proc.Registered, Ptable.exec, setProc_proc, if_pos rfl] at left
    cases left.1
  next c signum handler =>
    push Not at bad
    obtain ⟨i, current, index, registered, missing⟩ := bad
    rw [Ptable.step, current] at done
    obtain ⟨user, done⟩ := begin_eq_ok.mp done
    have stored : t = s.storeHandler i SIGFPE handler := by
      have other : signum ≠ -1 := by
        rintro rfl
        cases index
      simp only [sysSignal, other, index, if_false, Nat.zero_lt_succ, dite_true] at done
      cases done
      rfl
    rw [stored] at delivers
    have left := delivers c i current (by simpa [storeHandler] using registered)
    rw [Proc.Registered, storeHandler, setProc_proc, if_pos rfl] at left
    rcases List.mem_cons.mp left.2 with same | before
    · cases same
    · exact missing _ before
  next => exact bad trivial

end Ptable

/-- **When a delivered handler was registered by the running program.** For every run: in each of
its states, a divide trap would be delivered only with a handler and a restorer that the process
itself registered since it was created or last replaced its program, exactly when every event of the
run meets `SignalOk`. -/
theorem delivered_registered_iff {ι : Type} [DecidableEq ι] (es : List (ProcEvent ι)) :
    Always Ptable.step Ptable.DeliversRegistered Ptable.userinit es ↔
      EachStep Ptable.step Ptable.SignalOk Ptable.userinit es := by
  have holds : ∀ s : Ptable ι, s.Shaped ∧ s.Current → s.DeliversRegistered :=
    fun s inv => inv.2.delivers inv.1
  refine always_iff_eachStep holds ?_ ⟨Ptable.shaped_userinit, ?_⟩
  · rintro s e t ⟨shaped, current⟩ done
    exact ⟨fun ok => ⟨shaped.step done, current.step shaped done ok⟩,
      fun bad => Ptable.not_delivers done bad⟩
  · intro i live
    by_cases same : i = initproc
    · rw [same]
      refine ⟨fun registered => absurd rfl registered, fun v absurdity => ?_⟩
      cases absurdity
    · rw [Ptable.userinit_others same] at live
      exact absurd rfl live

/-- Init registers a handler with a restorer and replaces its program. -/
def handlerThenExec : List (ProcEvent (Fin 1)) :=
  [.scheduler 0 initproc, .call 0 (.signal (-1) 0x20), .call 0 (.signal 0 0x10), .call 0 .exec]

/-- A child registers a restorer and exits; the next child, in the same entry, registers a
handler. -/
def restorerOfSibling : List (ProcEvent (Fin 1)) :=
  [.scheduler 0 initproc, .call 0 .fork, .call 0 .forkCopy, .call 0 .forkReturn, .call 0 .wait,
    .scheduler 0 ⟨1, one_lt_NPROC⟩, .call 0 (.signal (-1) 0x99), .call 0 .exit,
    .scheduler 0 initproc, .call 0 .wait, .call 0 .fork, .call 0 .forkCopy, .call 0 .forkReturn,
    .call 0 .yield, .scheduler 0 ⟨1, one_lt_NPROC⟩, .call 0 (.signal 0 0x10)]

/-- **Handlers outlive programs**: after `exec`, a divide trap goes to the handler of the old
program, and a process that registered no restorer gets that of the process that had the entry
before. -/
theorem handler_outlives_exec :
    (∃ s, handlerThenExec.foldlM Ptable.step Ptable.userinit = .ok s ∧ s.cpu 0 = some initproc ∧
      (trap (s.trapProc initproc 0x3000) (divideTrap 0x23 0x2fc0)).ending =
        .resume { divideTrap 0x23 0x2fc0 with esp := 0x2fa4, eip := 0x10 } ∧
      (s.proc initproc).ghost.registered = [] ∧ ¬ s.DeliversRegistered) ∧
    ∃ s, restorerOfSibling.foldlM Ptable.step Ptable.userinit = .ok s ∧
      s.cpu 0 = some ⟨1, by decide⟩ ∧
      (0x2fa4, 0x99) ∈ (trap (s.trapProc ⟨1, by decide⟩ 0x3000) (divideTrap 0x23 0x2fc0)).stores ∧
      (s.proc ⟨1, by decide⟩).ghost.registered = [(SIGFPE, 0x10)] ∧ ¬ s.DeliversRegistered := by
  refine ⟨⟨_, rfl, rfl, rfl, rfl, ?_⟩, _, rfl, rfl, ?_, rfl, ?_⟩
  · rw [Ptable.deliversRegistered_iff]
    intro delivers
    cases (delivers 0 initproc rfl (by decide)).1
  · decide
  · rw [Ptable.deliversRegistered_iff]
    intro delivers
    have restorer := (delivers 0 ⟨1, by decide⟩ rfl (by decide)).2
    rcases List.mem_cons.mp restorer with same | none'
    · cases same
    · cases none'

end Xv6
