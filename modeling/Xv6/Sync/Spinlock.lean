/-
**Spin locks and interrupts: `spinlock.c`.**

Any number of CPUs call `acquire`, `release`, `pushcli`, `popcli` and `sti`, and their memory
accesses interleave: `holding` reads `locked` and `cpu` one after the other, `acquire` records its
CPU behind the `xchg`, and `release` clears it before. A lock belongs to a CPU and not to a process:
`sched` leaves with `ptable.lock` held, and the process that comes back releases it.
-/

import Xv6.Lib.Run

namespace Xv6.Spinlock

open Lib Function

/-- What a CPU does next. In `acquire`: the two tests of `holding`, the `xchg` and `lk->cpu = cpu`;
in `release`: the two tests, `lk->cpu = 0`, the `xchg` and `popcli`. -/
inductive Pc (L : Type)
  | idle
  | isLocked (lk : L)
  | isMine (lk : L)
  | spin (lk : L)
  | record (lk : L)
  | wasLocked (lk : L)
  | wasMine (lk : L)
  | clear (lk : L)
  | unlock (lk : L)
  | pop

structure Cpu (L : Type) where
  /-- `FL_IF`: interrupts are on. -/
  fl : Bool
  /-- An `int`, but `popcli` panics before it goes below 0. -/
  ncli : Nat
  intena : Bool
  pc : Pc L
  /-- History: the locks that it took and did not give back. Nothing reads it. -/
  holds : List L

/-- `struct spinlock`. -/
structure Lock (C : Type) where
  locked : Bool
  cpu : Option C

structure Smp (C L : Type) where
  cpu : C → Cpu L
  lock : L → Lock C

inductive Op (L : Type)
  | acquire (lk : L)
  | release (lk : L)
  | pushcli
  | popcli
  | sti
  /-- The call under way makes its next memory access. -/
  | next
  deriving DecidableEq

inductive Stop
  | notEnabled
  | acquire
  | release
  | popcliInterruptible
  | popcli

variable {C L : Type}

/-- `pushcli`. -/
def Cpu.pushcli (k : Cpu L) : Cpu L :=
  { k with fl := false, ncli := k.ncli + 1, intena := if k.ncli = 0 then k.fl else k.intena }

/-- `popcli`. -/
def Cpu.popcli (k : Cpu L) : Except Stop (Cpu L) :=
  if k.fl then .error .popcliInterruptible
  else if k.ncli = 0 then .error .popcli
  else .ok { k with ncli := k.ncli - 1, fl := if k.ncli = 1 then k.intena else false }

namespace Smp

variable [DecidableEq C] [DecidableEq L]

/-- After `initlock` of every lock. -/
def init (fl : C → Bool) : Smp C L := ⟨fun c => ⟨fl c, 0, false, .idle, []⟩, fun _ => ⟨false, none⟩⟩

/-- `holding`, if nothing comes between its two reads. -/
def holding (s : Smp C L) (c : C) (lk : L) : Bool := (s.lock lk).locked && (s.lock lk).cpu == some c

def setCpu (s : Smp C L) (c : C) (k : Cpu L) : Smp C L := { s with cpu := update s.cpu c k }

def setLock (s : Smp C L) (lk : L) (l : Lock C) : Smp C L := { s with lock := update s.lock lk l }

/-- The next memory access of `acquire` or `release`. -/
def advance (s : Smp C L) (c : C) (k : Cpu L) : Pc L → Except Stop (Smp C L)
  | .idle => .error .notEnabled
  | .isLocked lk =>
    .ok (s.setCpu c { k with pc := if (s.lock lk).locked then .isMine lk else .spin lk })
  | .isMine lk =>
    if (s.lock lk).cpu = some c then .error .acquire else .ok (s.setCpu c { k with pc := .spin lk })
  | .spin lk =>
    if (s.lock lk).locked then .ok s
    else .ok
      ((s.setCpu c { k with pc := .record lk, holds := lk :: k.holds }).setLock lk ⟨true,
      (s.lock lk).cpu⟩)
  | .record lk => .ok ((s.setCpu c { k with pc := .idle }).setLock lk ⟨(s.lock lk).locked, some c⟩)
  | .wasLocked lk =>
    if (s.lock lk).locked then .ok (s.setCpu c { k with pc := .wasMine lk }) else .error .release
  | .wasMine lk =>
    if (s.lock lk).cpu = some c then .ok (s.setCpu c { k with pc := .clear lk })
      else .error .release
  | .clear lk =>
    .ok ((s.setCpu c { k with pc := .unlock lk }).setLock lk ⟨(s.lock lk).locked, none⟩)
  | .unlock lk =>
    .ok
      ((s.setCpu c { k with pc := .pop, holds := k.holds.erase lk }).setLock lk ⟨false,
      (s.lock lk).cpu⟩)
  | .pop => k.popcli.map fun k => s.setCpu c { k with pc := .idle }

/-- A call that a CPU begins. -/
def call (s : Smp C L) (c : C) (k : Cpu L) : Op L → Except Stop (Smp C L)
  | .acquire lk => .ok (s.setCpu c { k.pushcli with pc := .isLocked lk })
  | .release lk => .ok (s.setCpu c { k with pc := .wasLocked lk })
  | .pushcli => .ok (s.setCpu c k.pushcli)
  | .popcli => k.popcli.map fun k => s.setCpu c k
  | .sti => .ok (s.setCpu c { k with fl := true })
  | .next => .error .notEnabled

/-- **One step of one CPU.** -/
def exec (s : Smp C L) (e : C × Op L) : Except Stop (Smp C L) :=
  match (s.cpu e.1).pc with
  | .idle => s.call e.1 (s.cpu e.1) e.2
  | p => if e.2 = .next then s.advance e.1 (s.cpu e.1) p else .error .notEnabled

/-- **The callers' discipline**: `sti` outside every `pushcli`, and `popcli` for a `pushcli` of
one's own. -/
def Fair (s : Smp C L) (e : C × Op L) : Prop :=
  match e.2 with
  | .sti => (s.cpu e.1).ncli = 0
  | .popcli => (s.cpu e.1).holds.length < (s.cpu e.1).ncli
  | _ => True

end Smp

/-! ### One CPU -/

/-- The `pushcli` of an `acquire` that has no lock yet, or of a `release` that gave it back. -/
@[grind] def pending : Pc L → Nat
  | .isLocked _ | .isMine _ | .spin _ | .pop => 1
  | _ => 0

/-- The CPU has the lock and `lk->cpu` says so. -/
@[grind] def Cpu.Named (k : Cpu L) (lk : L) : Prop :=
  lk ∈ k.holds ∧ k.pc ≠ .record lk ∧ k.pc ≠ .unlock lk

/-- Interrupts are off where there was a `pushcli`, and there was one for every lock. -/
@[grind] structure Cpu.Ok (k : Cpu L) : Prop where
  depth : k.holds.length + pending k.pc ≤ k.ncli
  off : 0 < k.ncli → k.fl = false
  nodup : k.holds.Nodup
  has : ∀ lk, k.pc = .record lk ∨ k.pc = .clear lk ∨ k.pc = .unlock lk → lk ∈ k.holds
  wants : ∀ lk, k.pc = .spin lk → lk ∉ k.holds

theorem Cpu.popcli_map {A : Type} {k : Cpu L} {f : Cpu L → A} {a : A}
    (done : k.popcli.map f = .ok a) :
    0 < k.ncli ∧
      a = f { k with ncli := k.ncli - 1, fl := if k.ncli = 1 then k.intena else false } := by
  rw [popcli] at done
  split at done
  · cases done
  split at done
  · cases done
  next some' =>
    cases done
    exact ⟨Nat.pos_of_ne_zero some', rfl⟩

/-! ### All of them -/

namespace Smp

/-- **A lock is set while one CPU has it**, and names it but for the ends of `acquire` and
`release`. -/
structure Inv (s : Smp C L) : Prop where
  ok : ∀ c, (s.cpu c).Ok
  locked : ∀ lk, (s.lock lk).locked = true ↔ ∃ c, lk ∈ (s.cpu c).holds
  sole : ∀ c d lk, lk ∈ (s.cpu c).holds → lk ∈ (s.cpu d).holds → c = d
  named : ∀ c lk, (s.lock lk).cpu = some c ↔ (s.cpu c).Named lk

section Steps

variable [DecidableEq C] [DecidableEq L] {s t : Smp C L} {c : C} {k : Cpu L} {lk : L} {l : Lock C}
    {e : C × Op L}

omit [DecidableEq L] in
/-- A step that stores to no lock. -/
theorem Inv.setCpu (inv : s.Inv) (ok : k.Ok) (holds : k.holds = (s.cpu c).holds)
    (named : ∀ lk, k.Named lk ↔ (s.cpu c).Named lk) : (s.setCpu c k).Inv := by
  obtain ⟨oks, locked, sole, names⟩ := inv
  refine ⟨fun d => ?_, ?_, ?_, ?_⟩ <;> simp only [Smp.setCpu, update_apply]
  · split
    · exact ok
    · exact oks d
  all_goals grind

/-- A step that stores to the lock `lk`, which no other CPU has. -/
theorem Inv.setLock (inv : s.Inv) (ok : k.Ok) (apart : ∀ d, lk ∈ (s.cpu d).holds → d = c)
    (others : ∀ x, x ≠ lk → (x ∈ k.holds ↔ x ∈ (s.cpu c).holds) ∧ (k.Named x ↔ (s.cpu c).Named x))
    (locked : l.locked = true ↔ lk ∈ k.holds) (named : ∀ d, l.cpu = some d ↔ d = c ∧ k.Named lk) :
    ((s.setCpu c k).setLock lk l).Inv := by
  obtain ⟨oks, locks, sole, names⟩ := inv
  refine ⟨fun d => ?_, ?_, ?_, ?_⟩ <;> simp only [Smp.setCpu, Smp.setLock, update_apply]
  · split
    · exact ok
    · exact oks d
  all_goals grind

theorem Inv.advance {p : Pc L} (inv : s.Inv) (at' : (s.cpu c).pc = p)
    (taken : s.advance c (s.cpu c) p = .ok t) : t.Inv := by
  obtain ⟨ok, locked, sole, named⟩ := id inv
  have mine := ok c
  cases p with
  | idle => cases taken
  | isLocked lk =>
    cases taken
    exact inv.setCpu (by constructor <;> grind) rfl (by grind)
  | isMine lk | wasLocked lk | wasMine lk =>
    rw [Smp.advance] at taken
    split_ifs at taken
    cases taken
    exact inv.setCpu (by constructor <;> grind) rfl (by grind)
  | spin lk =>
    rw [Smp.advance] at taken
    split_ifs at taken
    · cases taken
      exact inv
    · cases taken
      exact inv.setLock (by constructor <;> grind) (by grind) (by grind) (by grind) (by grind)
  | record lk | clear lk | unlock lk =>
    cases taken
    exact inv.setLock (by constructor <;> grind) (by grind) (by grind) (by grind) (by grind)
  | pop =>
    obtain ⟨_, rfl⟩ := Cpu.popcli_map taken
    exact inv.setCpu (by constructor <;> grind) rfl (by grind)

theorem Inv.call {op : Op L} (inv : s.Inv) (idle : (s.cpu c).pc = .idle) (fair : s.Fair (c, op))
    (taken : s.call c (s.cpu c) op = .ok t) : t.Inv := by
  have mine := inv.ok c
  cases op with
  | popcli =>
    obtain ⟨_, rfl⟩ := Cpu.popcli_map taken
    exact inv.setCpu (by constructor <;> grind [Fair]) rfl (by grind)
  | next => cases taken
  | _ =>
    cases taken
    refine inv.setCpu ?_ rfl ?_
    · constructor <;> grind [Cpu.pushcli, Fair]
    · grind [Cpu.pushcli]

theorem Inv.exec (inv : s.Inv) (fair : s.Fair e) (taken : s.exec e = .ok t) : t.Inv := by
  unfold Smp.exec at taken
  split at taken
  · next idle => exact inv.call idle fair taken
  · split_ifs at taken
    exact inv.advance rfl taken

/-- **What the locks are for.** No two CPUs have a lock, interrupts are off on a CPU that has one,
`holding` tells a CPU what it has, and a panic comes of misuse only: of the `acquire` of a lock by
the CPU that has it, or of the `release` of one by another. -/
structure Safe (s : Smp C L) : Prop where
  exclusive : ∀ c d lk, lk ∈ (s.cpu c).holds → lk ∈ (s.cpu d).holds → c = d
  masked : ∀ c, (s.cpu c).holds ≠ [] → (s.cpu c).fl = false
  exact : ∀ c lk, (s.cpu c).pc = .idle → (s.holding c lk = true ↔ lk ∈ (s.cpu c).holds)
  misuse : ∀ e stop, s.Fair e → s.exec e = .error stop → stop = .notEnabled ∨ ∃ lk,
    stop = .acquire ∧ (s.cpu e.1).pc = .isMine lk ∧ lk ∈ (s.cpu e.1).holds ∨
    stop = .release ∧ ((s.cpu e.1).pc = .wasLocked lk ∨ (s.cpu e.1).pc = .wasMine lk) ∧
      lk ∉ (s.cpu e.1).holds

theorem Inv.safe (inv : s.Inv) : s.Safe where
  exclusive := inv.sole
  masked c some' := by grind [inv.ok c, List.length_pos_iff]
  exact c lk idle := by
    unfold holding
    rw [Bool.and_eq_true, beq_iff_eq, inv.named, inv.locked]
    grind
  misuse e stop fair fails := by
    obtain ⟨c, op⟩ := e
    obtain ⟨ok, locked, sole, named⟩ := inv
    have mine := ok c
    simp only [Smp.exec] at fails
    generalize at' : (s.cpu c).pc = p at fails
    cases p with
    | idle => cases op <;> grind [Smp.call, Fair, Cpu.popcli, Except.map]
    | _ => grind [Smp.advance, Cpu.popcli, Except.map]

end Steps

/-- **Spin locks exclude.** In every state of every interleaving of the memory accesses of any
number of CPUs that keep the discipline on `sti` and `popcli`. -/
theorem locks_exclude [DecidableEq C] [DecidableEq L] (fl : C → Bool) {es : List (C × Op L)}
    (fair : EachStep exec Fair (init fl) es) : Always exec Safe (init fl) es := by
  refine fair.always (fun _ => Inv.safe)
    (fun _ _ _ inv taken fair => inv.exec fair taken) ⟨fun c => ?_, ?_, ?_, ?_⟩
  · constructor <;> simp [init, pending]
  all_goals simp [init, Cpu.Named]

/-- One CPU spins while the other has the lock. -/
theorem locks_exclude_two :
    Always exec Safe (init fun _ => false) [(true, .sti), (true, .acquire ()), (true, .next),
      (true, .next), (false, .acquire ()), (true, .next), (false, .next), (false, .next),
      (false, .next)] := by
  refine locks_exclude _ (eachStep_cons.mpr fun _ _ => ⟨rfl, ?_⟩)
  repeat refine eachStep_cons.mpr fun _ _ => ⟨trivial, ?_⟩
  exact eachStep_nil

/-! ### Interrupts come back as they were -/

/-- What `FL_IF` is where nothing is pushed. -/
def base (s : Smp C L) (c : C) : Bool :=
  if (s.cpu c).ncli = 0 then (s.cpu c).fl else (s.cpu c).intena

theorem base_setCpu [DecidableEq C] {s : Smp C L} {c d : C} {k : Cpu L} : (s.setCpu d k).base c =
    if c = d then if k.ncli = 0 then k.fl else k.intena else s.base c := by
  unfold base setCpu
  grind [update_apply]

theorem base_exec [DecidableEq C] [DecidableEq L] {s t : Smp C L} {c : C} {e : C × Op L}
    (other : e ≠ (c, .sti)) (taken : s.exec e = .ok t) : t.base c = s.base c := by
  obtain ⟨d, op⟩ := e
  have set : ∀ (m : Smp C L) lk l, (m.setLock lk l).base c = m.base c := fun _ _ _ => rfl
  have same : s.base d = if (s.cpu d).ncli = 0 then (s.cpu d).fl else (s.cpu d).intena := rfl
  simp only [exec] at taken
  generalize (s.cpu d).pc = p at taken
  cases p with
  | idle => cases op <;> grind [base_setCpu, Smp.call, Cpu.pushcli, Cpu.popcli_map]
  | _ => grind [base_setCpu, Smp.advance, Cpu.popcli_map]

/-- **`popcli` undoes `pushcli`.** Over every run in which a CPU makes no `sti` of its own: where
nothing is pushed at either end, interrupts are as they were, whatever it took and gave back and
whatever the others did. -/
theorem interrupts_restored [DecidableEq C] [DecidableEq L] {s t : Smp C L} {c : C}
    {es : List (C × Op L)} (plain : (c, .sti) ∉ es) (done : es.foldlM exec s = .ok t)
    (before : (s.cpu c).ncli = 0) (after : (t.cpu c).ncli = 0) : (t.cpu c).fl = (s.cpu c).fl := by
  have same : t.base c = s.base c := by
    refine run_invariant (fun es t => (c, .sti) ∉ es → t.base c = s.base c)
      (fun _ => rfl) ?_ es t done plain
    intro es m e t ih taken plain
    rw [List.mem_append, List.mem_singleton, not_or] at plain
    rw [base_exec (Ne.symm plain.2) taken, ih plain.1]
  rwa [base, if_pos after, base, if_pos before] at same

/-- It takes two `popcli` to undo two `pushcli`. -/
theorem interrupts_restored_twice : ∃ t : Smp Unit Unit, List.foldlM exec (init fun _ => true)
    [((), .pushcli), ((), .pushcli), ((), .popcli), ((), .popcli)] = .ok t ∧
      (t.cpu ()).fl = ((init fun _ => true : Smp Unit Unit).cpu ()).fl := by
  have plain :
    ((), .sti) ∉ [((), Op.pushcli (L := Unit)), ((), .pushcli), ((), .popcli), ((), .popcli)] := by
      decide
  exact ⟨_, rfl, interrupts_restored plain rfl rfl rfl⟩

end Smp

end Xv6.Spinlock
