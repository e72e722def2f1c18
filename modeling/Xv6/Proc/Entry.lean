/-
**What one event does to one entry of the process table.**

`Changed s e j p` lists the ways in which entry `j` can become `p` by the event `e`, as far as
`killed`, `handler` and the ghost are concerned; `Shaped.changed` says that there is no other.
-/

import Xv6.Proc.Family

namespace Xv6

/-- What an entry keeps in most events. -/
def Proc.Keeps (q p : Proc) : Prop :=
  p.killed = q.killed ∧ p.handler = q.handler ∧ p.ghost = q.ghost ∧
    (p.state = q.state ∨ q.state ≠ .UNUSED ∧ p.state ≠ .UNUSED ∧ p.state ≠ .EMBRYO)

theorem Proc.Keeps.refl (p : Proc) : p.Keeps p := ⟨rfl, rfl, rfl, .inl rfl⟩

namespace Ptable

variable {ι : Type} {s t : Ptable ι}

inductive Changed (s : Ptable ι) (e : ProcEvent ι) (j : Pslot) (p : Proc) : Prop
  /-- The entry goes to another state, which is not one that an unused entry has. -/
  | kept (keeps : (s.proc j).Keeps p)
  /-- `allocproc` takes it. -/
  | created (unused : (s.proc j).state = .UNUSED) (entry : p = s.embryo j)
  /-- `fork` gives it back. -/
  | failed {c : ι} {i : Pslot} (event : e = .call c .forkFail) (current : s.cpu c = some i)
      (task : (s.proc i).task = .forking j) (entry : p = { s.proc j with state := .UNUSED })
  /-- `wait` frees it. -/
  | reaped (unused : p.state = .UNUSED) (killed : p.killed = false)
  /-- `kill` is called. -/
  | killed {c : ι} {pid : BitVec 32} (event : e = .call c (.kill pid))
      (entry : p = ((s.kill pid).2.noteKill pid).proc j)
  /-- The process stores to its table of handlers. -/
  | stored {c : ι} {signum handler : BitVec 32} {index : Fin 257}
      (event : e = .call c (.signal signum handler)) (current : s.cpu c = some j)
      (slot : index.val = if signum = -1 then 256 else signum.toNat % 2 ^ 30)
      (entry : p = (s.storeHandler j index handler).proc j)
  /-- The process replaces its image. -/
  | replaced {c : ι} (event : e = .call c .exec) (current : s.cpu c = some j)
      (entry : p = (s.exec j).proc j)
  /-- The process divides by zero without a handler. -/
  | divided {c : ι} (current : s.cpu c = some j) (entry : p = { s.proc j with killed := true })

theorem changed_setProc {e : ProcEvent ι} {i : Pslot} {p : Proc} (change : s.Changed e i p)
    (j : Pslot) : s.Changed e j ((s.setProc i p).proc j) := by
  rw [setProc_proc]
  split
  next same =>
    rw [same]
    exact change
  next => exact .kept (.refl _)

theorem changed_storeHandler {c : ι} {i : Pslot} {signum handler : BitVec 32} {index : Fin 257}
    (current : s.cpu c = some i)
    (slot : index.val = if signum = -1 then 256 else signum.toNat % 2 ^ 30) (j : Pslot) :
    s.Changed (.call c (.signal signum handler)) j ((s.storeHandler i index handler).proc j) := by
  by_cases same : j = i
  · rw [same]
    exact .stored rfl current slot rfl
  · rw [storeHandler, setProc_proc, if_neg same]
    exact .kept (.refl _)

variable [DecidableEq ι]

theorem Shaped.changed_call (shaped : s.Shaped) {c : ι} {i : Pslot} {op : ProcOp}
    (current : s.cpu c = some i) (done : s.call c i op = .ok t) (j : Pslot) :
    s.Changed (.call c op) j (t.proc j) := by
  have running := shaped.placed.current c i current
  cases op with
  | fork =>
    obtain ⟨user, done⟩ := begin_eq_ok.mp done
    cases done
    rw [Ptable.fork]
    cases found : s.unusedProc with
    | none => exact .kept (.refl _)
    | some np =>
      have unused := unusedProc_spec found
      by_cases new : j = np
      · have other : j ≠ i := by grind
        exact .created (new ▸ unused) (by grind)
      · exact .kept (by grind [Proc.Keeps])
  | forkFail =>
    rw [Ptable.call] at done
    split at done <;> cases done
    next np task =>
      have embryo := shaped.forks.embryo i np (by grind)
      by_cases new : j = np
      · refine .failed rfl current (new ▸ task) ?_
        grind [forkFail]
      · exact .kept (by grind [Proc.Keeps, forkFail])
  | forkCopy =>
    rw [Ptable.call] at done
    split at done <;> cases done
    next np task =>
      exact .kept (by grind [Proc.Keeps, forkCopy])
  | forkReturn =>
    rw [Ptable.call] at done
    split at done <;> cases done
    next np task =>
      have embryo := shaped.forks.embryo i np (by grind)
      exact .kept (by grind [Proc.Keeps, forkReturn])
  | exit =>
    obtain ⟨user, done⟩ := begin_eq_ok.mp done
    split at done <;> cases done
    exact .kept (by grind [Proc.Keeps, Ptable.exit, wake])
  | wait =>
    have changed : s.Changed (.call c .wait) j ((s.wait c i).proc j) := by
      rw [Ptable.wait]
      split
      next z found =>
        obtain ⟨child, zombie⟩ := zombieChild_spec found
        by_cases freed : j = z
        · exact .reaped (by grind [Ptable.reap]) (by grind [Ptable.reap])
        · exact .kept (by grind [Proc.Keeps, Ptable.reap])
      next =>
        dsimp only
        split
        · exact .kept (by grind [Proc.Keeps])
        · exact .kept (by grind [Proc.Keeps, Ptable.sleep])
    rw [Ptable.call] at done
    split at done
    · cases done
      exact changed
    · obtain ⟨user, done⟩ := begin_eq_ok.mp done
      cases done
      exact changed
  | yield =>
    cases done
    exact .kept (by grind [Proc.Keeps, Ptable.yield])
  | sleep chan =>
    cases done
    exact .kept (by grind [Proc.Keeps, Ptable.sleep])
  | kill pid =>
    obtain ⟨user, done⟩ := begin_eq_ok.mp done
    cases done
    exact .killed rfl rfl
  | signal signum handler =>
    obtain ⟨user, done⟩ := begin_eq_ok.mp done
    unfold sysSignal at done
    split at done
    next restorer =>
      cases done
      exact changed_storeHandler current (by rw [if_pos restorer]) j
    next other =>
      split at done <;> cases done
      exact changed_storeHandler current (by rw [if_neg other]) j
  | exec =>
    obtain ⟨user, done⟩ := begin_eq_ok.mp done
    cases done
    refine changed_setProc (.replaced rfl current ?_) j
    rw [Ptable.exec, setProc_proc, if_pos rfl]
  | divide =>
    obtain ⟨user, done⟩ := begin_eq_ok.mp done
    cases done
    unfold Ptable.divide
    split
    · exact .kept (.refl _)
    · exact changed_setProc (.divided current rfl) j

theorem Shaped.changed (shaped : s.Shaped) {e : ProcEvent ι} (done : s.step e = .ok t) (j : Pslot) :
    s.Changed e j (t.proc j) := by
  cases e with
  | scheduler c i =>
    rw [Ptable.step] at done
    split at done <;> cases done
    next enabled =>
      exact .kept (by grind [Proc.Keeps, resumed])
  | wakeup chan =>
    cases done
    exact .kept (by grind [Proc.Keeps, wake])
  | call c op =>
    rw [Ptable.step] at done
    cases current : s.cpu c with
    | none =>
      rw [current] at done
      cases done
    | some i =>
      rw [current] at done
      exact shaped.changed_call current done j

end Ptable

end Xv6
