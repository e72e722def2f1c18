/-
**One pipe and the processes that use it.**

`PipeSys` is a pipe, the entries of any number of processes in the process table, and of each
process where it is in `piperead` or `pipewrite`. An event is what a process does between taking
`p->lock` and giving it up, or `kill`, `yield` and the scheduler. Any event may follow any other.

The state also has what the calls did: the bytes stored so far with the numbers of the calls that
stored them, the bytes returned so far, and the results of `pipewrite`.
-/

import Xv6.Lib.Meets
import Xv6.Lib.Ring
import Xv6.Proc.Table
import Xv6.Syscall.Pipe

namespace Xv6

open Lib Function

/-! ### The bytes in a pipe -/

namespace Pipe

instance : NeZero PIPESIZE := ⟨by decide⟩

/-- How many bytes are in the pipe. -/
def count (p : Pipe) : Nat := (p.nwrite - p.nread).toNat

/-- The bytes in the pipe. -/
def contents (p : Pipe) : List UInt8 := ring p.data p.nread p.count

/-- `p->data[p->nwrite++ % PIPESIZE] = b`. -/
def store (p : Pipe) (b : UInt8) : Pipe :=
  { p with data := update p.data (index p.nwrite) b, nwrite := p.nwrite + 1 }

/-- `p->nread++`. -/
def take (p : Pipe) : Pipe := { p with nread := p.nread + 1 }

/-- The loop of `pipewrite` from byte `i` on, for at most `left` bytes, until the pipe is full: the
byte it stops at. -/
def fill (addr : Nat → UInt8) (i : Nat) : Nat → Pipe → Nat × Pipe
  | 0, p => (i, p)
  | left + 1, p =>
    if p.nwrite = p.nread + 512 then (i, p) else fill addr (i + 1) left (p.store (addr i))

section Bytes

variable {p : Pipe}

theorem index_eq (count : UInt32) : index count = ringIndex PIPESIZE count := rfl

theorem length_contents (p : Pipe) : p.contents.length = p.count := length_ring _ _ _

theorem empty_iff : p.nread = p.nwrite ↔ p.count = 0 := by
  unfold count
  rw [← UInt32.toNat_inj, UInt32.toNat_sub]
  have := p.nread.toNat_lt
  have := p.nwrite.toNat_lt
  omega

theorem full_iff : p.nwrite = p.nread + 512 ↔ p.count = PIPESIZE := by
  unfold count
  rw [← UInt32.toNat_inj, UInt32.toNat_sub, UInt32.toNat_add,
    show (512 : UInt32).toNat = 512 from rfl, show PIPESIZE = 512 from rfl]
  have := p.nread.toNat_lt
  have := p.nwrite.toNat_lt
  omega

theorem count_store (room : p.count < PIPESIZE) (b : UInt8) : (p.store b).count = p.count + 1 := by
  unfold count at *
  show (p.nwrite + 1 - p.nread).toNat = _
  simp only [UInt32.toNat_sub] at *
  rw [UInt32.toNat_add, show (1 : UInt32).toNat = 1 from rfl]
  rw [show PIPESIZE = 512 from rfl] at room
  have := p.nread.toNat_lt
  have := p.nwrite.toNat_lt
  omega

theorem count_take (some' : p.count ≠ 0) : p.take.count + 1 = p.count := by
  unfold count at *
  show (p.nwrite - (p.nread + 1)).toNat + 1 = _
  simp only [UInt32.toNat_sub] at *
  rw [UInt32.toNat_add, show (1 : UInt32).toNat = 1 from rfl]
  have := p.nread.toNat_lt
  have := p.nwrite.toNat_lt
  omega

theorem contents_store (room : p.count < PIPESIZE) (b : UInt8) :
    (p.store b).contents = p.contents ++ [b] := by
  have place : p.nwrite = p.nread + UInt32.ofNat p.count := by
    unfold count
    rw [UInt32.ofNat_toNat, UInt32.add_comm, UInt32.sub_add_cancel]
  unfold contents
  rw [count_store room]
  show ring (update p.data (index p.nwrite) b) p.nread (p.count + 1) = _
  rw [index_eq, place]
  exact ring_push (by decide) p.data p.nread room b

theorem contents_take (some' : p.count ≠ 0) :
    p.contents = p.data (index p.nread) :: p.take.contents := by
  unfold contents
  rw [← count_take some', ring_pop]
  rfl

/-- The loop of `pipewrite` that meets no wakeup, by where it stops. -/
theorem writeLoop_fill (addr : Nat → UInt8) {n i left : Nat} (p : Pipe) (killed : Bool)
    (rest : i + left = n) : p.writeLoop addr n i [] killed =
      let out := p.fill addr i left
      if out.1 < n then
        if out.2.readopen = false ∨ killed then .ok (-1, out.2) else .error .sleep
      else .ok (n, out.2) := by
  induction left generalizing i p with
  | zero => rw [writeLoop, if_neg (by omega), fill]; simp only; rw [if_neg (by omega)]
  | succ left ih =>
    rw [writeLoop, if_pos (by omega), fill]
    by_cases full : p.nwrite = p.nread + 512
    · simp only [if_pos full, if_pos (show i < n by omega)]
    · simp only [if_neg full]
      exact ih (p.store (addr i)) (by omega)

/-- What a loop over the bytes leaves alone. -/
structure SameEnds (p q : Pipe) : Prop where
  readopen : q.readopen = p.readopen
  writeopen : q.writeopen = p.writeopen

theorem readLoop_spec (p : Pipe) (n : Nat) : (p.readLoop n).1 = p.contents.take n ∧
    (p.readLoop n).2.contents = p.contents.drop n ∧ SameEnds p (p.readLoop n).2 := by
  induction n generalizing p with
  | zero => exact ⟨rfl, rfl, rfl, rfl⟩
  | succ n ih =>
    rw [readLoop]
    by_cases empty : p.nread = p.nwrite
    · have none' : p.contents = [] := by
        rw [← List.length_eq_zero_iff, length_contents, empty_iff.mp empty]
      rw [if_pos empty]
      refine ⟨?_, ?_, rfl, rfl⟩
      · rw [none', List.take_nil]
      · rw [none', List.drop_nil]
    · obtain ⟨bytes, rest, ends⟩ := ih p.take
      rw [if_neg empty, contents_take (mt empty_iff.mpr empty)]
      exact ⟨congrArg _ bytes, rest, ends.readopen, ends.writeopen⟩

theorem count_readLoop_le (p : Pipe) (n : Nat) : (p.readLoop n).2.count ≤ p.count := by
  rw [← length_contents, ← length_contents, (p.readLoop_spec n).2.1, List.length_drop]
  exact Nat.sub_le _ _

theorem fill_spec (addr : Nat → UInt8) (i left : Nat) (fits : p.count ≤ PIPESIZE) :
    (fill addr i left p).1 = i + min left (PIPESIZE - p.count) ∧
      (fill addr i left p).2.contents =
        p.contents ++ (List.range' i (min left (PIPESIZE - p.count))).map addr ∧
      SameEnds p (fill addr i left p).2 := by
  induction left generalizing p i with
  | zero =>
    rw [Nat.zero_min]
    exact ⟨rfl, (List.append_nil _).symm, rfl, rfl⟩
  | succ left ih =>
    rw [fill]
    by_cases full : p.nwrite = p.nread + 512
    · rw [if_pos full, full_iff.mp full, Nat.sub_self, Nat.min_zero]
      exact ⟨rfl, (List.append_nil _).symm, rfl, rfl⟩
    · have room : p.count < PIPESIZE := lt_of_le_of_ne fits (mt full_iff.mpr full)
      have count := count_store room (addr i)
      obtain ⟨stop, bytes, ends⟩ := ih (i + 1) (p := p.store (addr i)) (by omega)
      have stored :
          min (left + 1)
          (PIPESIZE - p.count) = min left (PIPESIZE - (p.store (addr i)).count) + 1 := by
        omega
      rw [if_neg full, stored, stop, bytes, contents_store room, List.range'_succ, List.map_cons,
        List.append_assoc]
      exact ⟨by omega, rfl, ends.readopen, ends.writeopen⟩

theorem count_fill (addr : Nat → UInt8) (i left : Nat) (fits : p.count ≤ PIPESIZE) :
    (fill addr i left p).2.count = p.count + min left (PIPESIZE - p.count) := by
  rw [← length_contents, (fill_spec addr i left fits).2.1, List.length_append, List.length_map,
    List.length_range', length_contents]

end Bytes

end Pipe

/-! ### Processes at a pipe -/

/-- A call of `pipewrite` that returned. -/
structure PipeWrite where
  /-- The number of the call. -/
  id : Nat
  addr : Nat → UInt8
  n : Int
  result : Int

/-- Where a process is. -/
inductive PipeCall
  /-- In no call. -/
  | outside
  /-- In `piperead`. -/
  | read (n : Int)
  /-- In call `id` of `pipewrite`, at byte `i`. -/
  | write (id : Nat) (addr : Nat → UInt8) (n : Int) (i : Nat)

/-- A pipe and the processes that use it. -/
structure PipeSys (ι : Type) where
  /-- The address of the `struct pipe`. -/
  page : BitVec 32
  pipe : Pipe
  proc : ι → Proc
  call : ι → PipeCall
  /-- How many calls of `pipewrite` began. -/
  calls : Nat
  /-- The bytes stored, each with the number of its call. -/
  stored : List (Nat × UInt8)
  /-- The bytes that `piperead` returned. -/
  returned : List UInt8
  /-- The calls of `pipewrite` that returned. -/
  written : List PipeWrite

inductive PipeEvent (ι : Type)
  /-- `piperead` from its call on. -/
  | read (i : ι) (n : Int)
  /-- `pipewrite` from its call on. -/
  | write (i : ι) (addr : Nat → UInt8) (n : Int)
  /-- The process goes on behind `sleep`. -/
  | resume (i : ι)
  /-- `pipeclose`. -/
  | close (i : ι) (writable : Bool)
  /-- The scheduler chooses the process. -/
  | scheduler (i : ι)
  | yield (i : ι)
  /-- `kill` of the process. -/
  | kill (i : ι)

namespace PipeSys

variable {ι : Type}

/-- `&p->nread`. -/
def nread (s : PipeSys ι) : Chan := .other (s.page + 564)

/-- `&p->nwrite`. -/
def nwrite (s : PipeSys ι) : Chan := .other (s.page + 568)

def wakeup (s : PipeSys ι) (chan : Chan) : PipeSys ι :=
  { s with proc := fun j => Ptable.wake (some chan) (s.proc j) }

variable [DecidableEq ι]

def setProc (s : PipeSys ι) (i : ι) (p : Proc) : PipeSys ι := { s with proc := update s.proc i p }

/-- Process `i` goes on to `call`. -/
def goto (s : PipeSys ι) (i : ι) (call : PipeCall) : PipeSys ι :=
  { s with call := update s.call i call }

/-- `sleep`. -/
def sleep (s : PipeSys ι) (i : ι) (chan : Chan) : PipeSys ι :=
  s.setProc i { s.proc i with chan := some chan, inSleep := true, state := .SLEEPING }

theorem sleepsOn_sleep (s : PipeSys ι) (i : ι) (chan : Chan) :
    ((s.sleep i chan).proc i).SleepsOn chan := by
  simp [sleep, setProc, Proc.SleepsOn]

/-- `piperead`, from the test of its first loop to its return or to `sleep`. -/
def piperead (s : PipeSys ι) (i : ι) (n : Int) : PipeSys ι :=
  if s.pipe.nread = s.pipe.nwrite ∧ s.pipe.writeopen then
    if (s.proc i).killed then s.goto i .outside
    else (s.goto i (.read n)).sleep i s.nread
  else
    let (bytes, pipe) := s.pipe.readLoop n.toNat
    ({ s with pipe, returned := s.returned ++ bytes }.wakeup s.nwrite).goto i .outside

/-- The bytes from `i` to `k` are stored by call `id`. -/
def storing (s : PipeSys ι) (id : Nat) (addr : Nat → UInt8) (i k : Nat) (pipe : Pipe) : PipeSys ι :=
  { s with pipe, stored := s.stored ++ (List.range' i (k - i)).map fun j => (id, addr j) }

/-- `pipewrite` returns. -/
def wrote (s : PipeSys ι) (i : ι) (write : PipeWrite) : PipeSys ι :=
  { s with written := write :: s.written }.goto i .outside

/-- `pipewrite`, from byte `j` on, to its return or to `sleep`. -/
def pipewrite (s : PipeSys ι) (i : ι) (id : Nat) (addr : Nat → UInt8) (n : Int) (j : Nat) :
    PipeSys ι :=
  let (k, pipe) := s.pipe.fill addr j (n.toNat - j)
  let s := s.storing id addr j k pipe
  if k < n.toNat then
    if s.pipe.readopen = false ∨ (s.proc i).killed then s.wrote i ⟨id, addr, n, -1⟩
    else ((s.wakeup s.nread).goto i (.write id addr n k)).sleep i s.nwrite
  else (s.wakeup s.nread).wrote i ⟨id, addr, n, n⟩

/-- **What `Pipe.read` does without a sleep, `piperead` does here**; where it sleeps, so does the
process. -/
theorem piperead_meets (s : PipeSys ι) (i : ι) (n : Int) :
    Meets (s.pipe.read n [] (s.proc i).killed)
      (fun x => (s.piperead i n).pipe = x.2.2 ∧ (s.piperead i n).returned = s.returned ++ x.2.1 ∧
        (s.piperead i n).call i = .outside)
      fun _ => (s.piperead i n).call i = .read n ∧ ((s.piperead i n).proc i).SleepsOn s.nread := by
  unfold Pipe.read piperead
  by_cases empty : s.pipe.nread = s.pipe.nwrite ∧ s.pipe.writeopen
  · rw [if_pos empty, if_pos empty]
    by_cases dead : (s.proc i).killed = true
    · rw [if_pos dead, if_pos dead]
      exact ⟨rfl, (List.append_nil _).symm, update_self ..⟩
    · rw [if_neg dead, if_neg dead]
      exact ⟨update_self .., sleepsOn_sleep _ i _⟩
  · rw [if_neg empty, if_neg empty]
    exact ⟨rfl, rfl, update_self ..⟩


/-- **What `Pipe.write` does without a sleep, `pipewrite` does here.** -/
theorem pipewrite_meets (s : PipeSys ι) (i : ι) (id : Nat) (addr : Nat → UInt8) (n : Int) :
    Meets (s.pipe.write addr n [] (s.proc i).killed)
      (fun x => (s.pipewrite i id addr n 0).pipe = x.2 ∧
        (s.pipewrite i id addr n 0).written = ⟨id, addr, n, x.1⟩ :: s.written ∧
        (s.pipewrite i id addr n 0).call i = .outside)
      fun _ => ((s.pipewrite i id addr n 0).proc i).SleepsOn s.nwrite := by
  unfold Pipe.write pipewrite
  rw [Pipe.writeLoop_fill addr s.pipe _ (Nat.zero_add _)]
  generalize s.pipe.fill addr 0 (n.toNat - 0) = out
  simp only
  by_cases short : out.1 < n.toNat
  · rw [if_pos short, if_pos short]
    set m := s.storing id addr 0 out.1 out.2
    by_cases stops : m.pipe.readopen = false ∨ (m.proc i).killed = true
    · rw [if_pos stops, if_pos (show out.2.readopen = false ∨ (s.proc i).killed = true from stops)]
      exact ⟨rfl, rfl, update_self ..⟩
    · rw [if_neg stops,
        if_neg (show ¬ (out.2.readopen = false ∨ (s.proc i).killed = true) from stops)]
      exact sleepsOn_sleep _ i _
  · rw [if_neg short, if_neg short]
    refine ⟨rfl, ?_, update_self ..⟩
    rw [if_neg (by omega)]
    rfl

/-- `pipeclose`; what happens to the page is said elsewhere. -/
def pipeclose (s : PipeSys ι) (writable : Bool) : PipeSys ι :=
  if writable then { s with pipe := { s.pipe with writeopen := false } }.wakeup s.nread
  else { s with pipe := { s.pipe with readopen := false } }.wakeup s.nwrite

/-- Process `i` runs, and the pipe is not freed. -/
def Runs (s : PipeSys ι) (i : ι) : Prop :=
  (s.proc i).state = .RUNNING ∧ (s.pipe.readopen = true ∨ s.pipe.writeopen = true)

instance (s : PipeSys ι) (i : ι) : Decidable (s.Runs i) := inferInstanceAs (Decidable (_ ∧ _))

/-- **One event.** A call begins only in a process that is in no call. -/
def step (s : PipeSys ι) : PipeEvent ι → Except ProcStop (PipeSys ι)
  | .read i n =>
    match s.call i with
    | .outside => when (s.Runs i) (s.piperead i n)
    | _ => .error .disabled
  | .write i addr n =>
    match s.call i with
    | .outside => when (s.Runs i) ({ s with calls := s.calls + 1 }.pipewrite i s.calls addr n 0)
    | _ => .error .disabled
  | .resume i =>
    match s.call i with
    | .outside => .error .disabled
    | .read n => when (s.Runs i) (s.piperead i n)
    | .write id addr n j => when (s.Runs i) (s.pipewrite i id addr n j)
  | .close i writable =>
    match s.call i with
    | .outside => when (s.Runs i) (s.pipeclose writable)
    | _ => .error .disabled
  | .scheduler i => when ((s.proc i).state = .RUNNABLE) (s.setProc i (Ptable.resumed (s.proc i)))
  | .yield i =>
    when ((s.proc i).state = .RUNNING) (s.setProc i { s.proc i with state := .RUNNABLE })
  | .kill i => .ok (s.setProc i (Ptable.killed (s.proc i)))

/-- A pipe that `pipealloc` just made, and processes that are in no call. -/
structure Start (s : PipeSys ι) : Prop where
  nread : s.pipe.nread = 0
  nwrite : s.pipe.nwrite = 0
  readopen : s.pipe.readopen = true
  writeopen : s.pipe.writeopen = true
  outside : ∀ i, s.call i = .outside
  awake : ∀ i, (s.proc i).state = .SLEEPING → (s.proc i).chan ≠ some s.nread ∧
    (s.proc i).chan ≠ some s.nwrite
  calls : s.calls = 0
  stored : s.stored = []
  returned : s.returned = []
  written : s.written = []

/-- **What a step can do**: a stretch of a call, `pipeclose`, or a change of one entry that puts
nobody to sleep. -/
inductive Step (s : PipeSys ι) : PipeEvent ι → PipeSys ι → Prop
  | read {e : PipeEvent ι} (i : ι) (n : Int)
      (event : e = .read i n ∨ e = .resume i ∧ s.call i = .read n) : Step s e (s.piperead i n)
  | write (i : ι) (addr : Nat → UInt8) (n : Int) :
      Step s (.write i addr n) ({ s with calls := s.calls + 1 }.pipewrite i s.calls addr n 0)
  | resume (i : ι) (id : Nat) (addr : Nat → UInt8) (n : Int) (j : Nat)
    (here : s.call i = .write id addr n j) :
      Step s (.resume i) (s.pipewrite i id addr n j)
  | close (i : ι) (writable : Bool) : Step s (.close i writable) (s.pipeclose writable)
  | proc {e : PipeEvent ι} (i : ι) (p : Proc)
    (event : e = .scheduler i ∨ e = .yield i ∨ e = .kill i)
      (awake : p.state ≠ .SLEEPING) : Step s e (s.setProc i p)

theorem step_cases {s t : PipeSys ι} {e : PipeEvent ι} (done : s.step e = .ok t) : s.Step e t := by
  cases e with
  | read i n =>
    rw [step] at done
    split at done
    · obtain ⟨_, rfl⟩ := when_eq_ok.mp done
      exact .read i n (.inl rfl)
    · cases done
  | write i addr n =>
    rw [step] at done
    split at done
    · obtain ⟨_, rfl⟩ := when_eq_ok.mp done
      exact .write i addr n
    · cases done
  | resume i =>
    rw [step] at done
    split at done
    · cases done
    · next n here =>
      obtain ⟨_, rfl⟩ := when_eq_ok.mp done
      exact .read i n (.inr ⟨rfl, here⟩)
    · next id addr n j here =>
      obtain ⟨_, rfl⟩ := when_eq_ok.mp done
      exact .resume i id addr n j here
  | close i writable =>
    rw [step] at done
    split at done
    · obtain ⟨_, rfl⟩ := when_eq_ok.mp done
      exact .close i writable
    · cases done
  | scheduler i =>
    obtain ⟨_, rfl⟩ := when_eq_ok.mp done
    refine .proc i _ (.inl rfl) ?_
    unfold Ptable.resumed
    split <;> nofun
  | yield i =>
    obtain ⟨_, rfl⟩ := when_eq_ok.mp done
    exact .proc i _ (.inr (.inl rfl)) nofun
  | kill i =>
    cases done
    refine .proc i _ (.inr (.inr rfl)) ?_
    show (if (s.proc i).state = .SLEEPING then ProcState.RUNNABLE else (s.proc i).state) ≠ _
    split
    · nofun
    · assumption

end PipeSys

end Xv6
