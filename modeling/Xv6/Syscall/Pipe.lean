/-
**Pipes and the console: `pipe.c` and `consoleread`.**

A reader of an empty pipe and a writer of a full one sleep, and other processes change the pipe
meanwhile. `wakes` lists what the sleeper finds each time it wakes up: whether it was killed, and
the pipe; a call that would sleep once more never returns.
-/

import Xv6.Kernel.Basic

namespace Xv6

/-- `struct pipe`. -/
structure Pipe where
  data : Fin PIPESIZE → UInt8
  nread : UInt32
  nwrite : UInt32
  readopen : Bool
  writeopen : Bool

namespace Pipe

/-- The element of `data` for a count of bytes. -/
def index (count : UInt32) : Fin PIPESIZE := ⟨count.toNat % PIPESIZE, Nat.mod_lt _ (by decide)⟩

/-- The loop of `piperead`: the bytes it stores. -/
def readLoop (p : Pipe) : Nat → List UInt8 × Pipe
  | 0 => ([], p)
  | n + 1 =>
    if p.nread = p.nwrite then ([], p)
    else
      let (bytes, q) := readLoop { p with nread := p.nread + 1 } n
      (p.data (index p.nread) :: bytes, q)

/-- `piperead`: the result and the bytes stored to `addr`. -/
def read (n : Int) : List (Bool × Pipe) → Bool → Pipe → Except Halt (Int × List UInt8 × Pipe)
  | wakes, killed, p =>
    if p.nread = p.nwrite ∧ p.writeopen then
      if killed then .ok (-1, [], p)
      else
        match wakes with
        | [] => .error .sleep
        | (killed, p) :: wakes => read n wakes killed p
    else
      let (bytes, p) := p.readLoop n.toNat
      .ok (bytes.length, bytes, p)

/-- `pipewrite` from byte `i` on. -/
def writeLoop (addr : Nat → UInt8) (n i : Nat) (wakes : List (Bool × Pipe)) (killed : Bool)
    (p : Pipe) : Except Halt (Int × Pipe) :=
  if i < n then
    if p.nwrite = p.nread + 512 then
      if p.readopen = false ∨ killed then .ok (-1, p)
      else
        match wakes with
        | [] => .error .sleep
        | (killed, p) :: wakes => writeLoop addr n i wakes killed p
    else
      writeLoop addr n (i + 1) wakes killed { p with
        data := Function.update p.data (index p.nwrite) (addr i)
        nwrite := p.nwrite + 1 }
  else .ok (n, p)
termination_by n - i + wakes.length
decreasing_by
  · simp
  · omega

/-- `pipewrite`. -/
def write (addr : Nat → UInt8) (n : Int) (wakes : List (Bool × Pipe)) (killed : Bool) (p : Pipe) :
    Except Halt (Int × Pipe) := do
  let (r, p) ← writeLoop addr n.toNat 0 wakes killed p
  return (if r < 0 then r else n, p)

theorem length_readLoop_le (p : Pipe) (n : Nat) : (p.readLoop n).1.length ≤ n := by
  induction n generalizing p with
  | zero => exact Nat.le_refl 0
  | succ n ih =>
    rw [readLoop]
    split
    · exact Nat.zero_le _
    · exact Nat.succ_le_succ (ih _)

theorem length_read_le {n : Int} {wakes : List (Bool × Pipe)} {killed : Bool} {p q : Pipe} {r : Int}
    {bytes : List UInt8} (done : p.read n wakes killed = .ok (r, bytes, q)) :
    bytes.length ≤ n.toNat := by
  induction wakes generalizing killed p with
  | nil =>
    rw [read] at done
    split at done
    · split at done <;> cases done
      exact Nat.zero_le _
    · cases done
      exact length_readLoop_le p _
  | cons wake wakes ih =>
    rw [read] at done
    split at done
    · split at done
      · cases done
        exact Nat.zero_le _
      · exact ih done
    · cases done
      exact length_readLoop_le p _

theorem writeLoop_congr {addr addr' : Nat → UInt8} {n : Nat} (same : ∀ i < n, addr i = addr' i)
    (i : Nat) (wakes : List (Bool × Pipe)) (killed : Bool) (p : Pipe) :
    writeLoop addr n i wakes killed p = writeLoop addr' n i wakes killed p := by
  fun_induction writeLoop addr n i wakes killed p with
  | case1 i wakes killed p inside full stop =>
    rw [writeLoop.eq_def addr', if_pos inside, if_pos full, if_pos stop]
  | case2 i killed p inside full wait =>
    rw [writeLoop.eq_def addr', if_pos inside, if_pos full, if_neg wait]
  | case3 i killed p inside full wait killed' p' wakes ih =>
    rw [ih, writeLoop.eq_def addr' n i (_ :: _), if_pos inside, if_pos full, if_neg wait]
  | case4 i wakes killed p inside room ih =>
    rw [ih, writeLoop.eq_def addr' n i, if_pos inside, if_neg room, same i inside]
  | case5 i wakes killed p outside => rw [writeLoop.eq_def addr', if_neg outside]

theorem write_congr {addr addr' : Nat → UInt8} {n : Int} (same : ∀ i < n.toNat, addr i = addr' i)
    (wakes : List (Bool × Pipe)) (killed : Bool) (p : Pipe) :
    write addr n wakes killed p = write addr' n wakes killed p := by
  rw [write, write, writeLoop_congr same]

end Pipe

/-! ### The console -/

/-- The loop of `consoleread` on the characters typed: the bytes stored, and whether it got to its
end and was not killed before. -/
def consolereadLoop : List UInt8 → Nat → List UInt8 × Bool
  | _, 0 => ([], true)
  | [], _ + 1 => ([], false)
  | c :: typed, n + 1 =>
    if c = 4 then ([], true)
    else if c = 10 then ([c], true)
    else
      let (bytes, ended) := consolereadLoop typed n
      (c :: bytes, ended)

/-- `consoleread`; `n` is the `uint` that `readi` passes on as an `int`. -/
def consoleread (typed : List UInt8) (n : Nat) : Int × List UInt8 :=
  let (bytes, ended) := consolereadLoop typed (BitVec.ofNat 32 n).toInt.toNat
  (if ended then bytes.length else -1, bytes)

theorem length_consolereadLoop_le (typed : List UInt8) (n : Nat) :
    (consolereadLoop typed n).1.length ≤ n := by
  fun_induction consolereadLoop typed n with
  | case1 => exact Nat.le_refl 0
  | case2 => exact Nat.zero_le _
  | case3 => exact Nat.zero_le _
  | case4 => exact Nat.succ_le_succ (Nat.zero_le _)
  | case5 c typed n other letter bytes ended rest ih =>
    rw [rest] at ih
    exact Nat.succ_le_succ ih

theorem length_consoleread_le (typed : List UInt8) (n : Nat) :
    (consoleread typed n).2.length ≤ (BitVec.ofNat 32 n).toInt.toNat :=
  length_consolereadLoop_le typed _

end Xv6
