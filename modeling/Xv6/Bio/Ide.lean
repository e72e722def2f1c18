/-
**The two disk drivers agree.**

`ide.c` keeps the requests in a queue: `iderw` appends one and sleeps, `idestart` gives the first
one to the drive, and `ideintr` completes it, wakes its process and starts the next. `memide.c` does
a request at once. `Drivers` runs both on the same requests: processes change buffers and call
`iderw` for them, the drive finishes commands, its interrupts are handled, and woken processes run,
in any order.
-/

import Mathlib.Data.Fintype.Card
import Xv6.Bio.Basic
import Xv6.Lib.Queue

namespace Xv6

open Lib Function

/-! ### The drive -/

/-- The ports 0x1f3 to 0x1f6: the sector and the disk of a command for one sector. -/
structure IdeRegs where
  low : UInt8
  mid : UInt8
  high : UInt8
  drive : UInt8

/-- What `idestart` writes there. -/
def IdeRegs.of (b : Buf) : IdeRegs where
  low := (b.sector &&& 0xff).toUInt8
  mid := ((b.sector >>> 8) &&& 0xff).toUInt8
  high := ((b.sector >>> 16) &&& 0xff).toUInt8
  drive := ((0xe0 : UInt32) ||| ((b.dev &&& 1) <<< 4) ||| ((b.sector >>> 24) &&& 0x0f)).toUInt8

/-- The sector that the drive addresses. -/
def IdeRegs.lba (r : IdeRegs) : UInt32 :=
  .ofNat (r.low.toNat + 2 ^ 8 * r.mid.toNat + 2 ^ 16 * r.high.toNat + 2 ^ 24 *
    (r.drive.toNat % 2 ^ 4))

/-- The disk that is selected. -/
def IdeRegs.disk1 (r : IdeRegs) : Bool := r.drive.toNat.testBit 4

inductive Drive
  | idle
  /-- A command for the registers; a write has got its data through `outsl`. -/
  | executing (regs : IdeRegs) (data : Option Block)
  /-- The interrupt is raised; `insl` can take the data of a read. -/
  | finished (data : Option Block)

/-- What `insl` leaves in the buffer. -/
def Drive.insl : Drive → Block → Block
  | .finished (some data), _ => data
  | _, old => old

theorem toNat_byte (x : UInt32) : (x &&& 0xff).toUInt8.toNat = x.toNat % 2 ^ 8 := by
  rw [UInt32.toNat_toUInt8, UInt32.toNat_and]
  show (x.toNat &&& 2 ^ 8 - 1) % 2 ^ 8 = _
  rw [Nat.and_two_pow_sub_one_eq_mod, Nat.mod_mod]

theorem drive_bits : ∀ n < 2 ^ 4, (0xf0 ||| n) % 2 ^ 8 % 2 ^ 4 = n ∧
    ((0xf0 ||| n) % 2 ^ 8).testBit 4 = true := by
  decide

theorem IdeRegs.of_correct {b : Buf} (isDev : b.dev = 1) (small : b.sector.toNat < 2 ^ 28) :
    (IdeRegs.of b).lba = b.sector ∧ (IdeRegs.of b).disk1 = true := by
  have drive : (IdeRegs.of b).drive.toNat = (0xf0 ||| b.sector.toNat / 2 ^ 24 % 2 ^ 4) % 2 ^ 8 := by
    unfold IdeRegs.of
    rw [isDev, UInt32.toNat_toUInt8, UInt32.toNat_or, UInt32.toNat_and, UInt32.toNat_shiftRight,
      Nat.shiftRight_eq_div_pow]
    show (0xf0 ||| (b.sector.toNat / 2 ^ 24 &&& 2 ^ 4 - 1)) % 2 ^ 8 = _
    rw [Nat.and_two_pow_sub_one_eq_mod]
  have byte : ∀ k : UInt32, (b.sector >>> k).toNat = b.sector.toNat / 2 ^ (k.toNat % 32) :=
    fun k => by
    rw [UInt32.toNat_shiftRight, Nat.shiftRight_eq_div_pow]
  have low : (IdeRegs.of b).low.toNat = b.sector.toNat % 2 ^ 8 := toNat_byte _
  have mid : (IdeRegs.of b).mid.toNat = b.sector.toNat / 2 ^ 8 % 2 ^ 8 := by
    rw [← show (b.sector >>> 8).toNat = b.sector.toNat / 2 ^ 8 from byte 8]
    exact toNat_byte _
  have high : (IdeRegs.of b).high.toNat = b.sector.toNat / 2 ^ 16 % 2 ^ 8 := by
    rw [← show (b.sector >>> 16).toNat = b.sector.toNat / 2 ^ 16 from byte 16]
    exact toNat_byte _
  obtain ⟨nibble, selected⟩ :=
    drive_bits (b.sector.toNat / 2 ^ 24 % 2 ^ 4) (Nat.mod_lt _ (by decide))
  refine ⟨?_, ?_⟩
  · unfold IdeRegs.lba
    rw [drive, nibble, low, mid, high]
    apply UInt32.toNat_inj.mp
    rw [UInt32.toNat_ofNat']
    omega
  · unfold IdeRegs.disk1
    rw [drive]
    exact selected

/-! ### The driver -/

/-- Where the holder of a buffer is. -/
inductive Caller
  /-- Not in `iderw`. -/
  | out
  /-- In `sleep(b, &idelock)`. -/
  | asleep
  /-- Woken, and about to look at the flags again. -/
  | ready
  deriving DecidableEq

/-- The state of `ide.c`, with the buffers it is called for and their holders, the drive and its two
disks. -/
structure Ide (β : Type) where
  buf : β → Buf
  /-- `idequeue` and the fields `qnext`. -/
  queue : Queue β
  caller : β → Caller
  havedisk1 : Bool
  disks : Bool → UInt32 → Block
  drive : Drive

namespace Ide

variable {β : Type}

/-- The command for a buffer. -/
def command (x : Buf) : Drive := .executing (.of x) (if x.dirty = true then some x.data else none)

def idestart (s : Ide β) : Option β → Except BioStop (Ide β)
  | none => .error .idestart
  | some b => .ok { s with drive := command (s.buf b) }

section Calls

variable [DecidableEq β]

/-- `(b->flags & (B_VALID|B_DIRTY)) != B_VALID`: the request is not done. -/
def waits (s : Ide β) (b : β) : Bool := !(s.buf b).valid || (s.buf b).dirty

/-- The loop at the end of `iderw`: the process sleeps on the buffer, or returns when the request is
done. -/
def await (s : Ide β) (b : β) : Ide β :=
  { s with caller := update s.caller b (if s.waits b then .asleep else .out) }

def wakeup (s : Ide β) (b : β) : Ide β :=
  if s.caller b = .asleep then { s with caller := update s.caller b .ready } else s

/-- `iderw`, until the process sleeps. -/
def iderw [Fintype β] (s : Ide β) (b : β) : Except BioStop (Ide β) :=
  if (s.buf b).busy = false then .error .iderwNotBusy
  else if (s.buf b).valid = true ∧ (s.buf b).dirty = false then .error .iderwNothingToDo
  else if (s.buf b).dev ≠ 0 ∧ s.havedisk1 = false then .error .iderwDisk1NotPresent
  else
    match s.queue.append (Fintype.card β + 1) b with
    | none => .error .loop
    | some queue => do
      let s := { s with queue }
      let s ← if queue.head = some b then s.idestart (some b) else .ok s
      return s.await b

def ideintr (s : Ide β) : Except BioStop (Ide β) :=
  match s.queue.head with
  | none => .ok s
  | some b =>
    let x := s.buf b
    let queue := s.queue.pop b
    let data := if x.dirty = false then s.drive.insl x.data else x.data
    let s := { s with
      queue, buf := update s.buf b { x with data, valid := true, dirty := false }, drive := .idle }
    let s := s.wakeup b
    if queue.head ≠ none then s.idestart queue.head else .ok s

/-- The drive does the command in progress and raises its interrupt. -/
def finish (s : Ide β) : Except BioStop (Ide β) :=
  match s.drive with
  | .executing r (some data) => .ok { s with
      disks := update s.disks r.disk1 (update (s.disks r.disk1) r.lba data)
      drive := .finished none }
  | .executing r none => .ok { s with drive := .finished (some (s.disks r.disk1 r.lba)) }
  | _ => .error .disabled

end Calls

/-- **The first request is the command in progress**, or its interrupt is raised. -/
def Active (s : Ide β) : List β → Prop
  | [] => s.drive = .idle
  | b :: _ => s.drive = command (s.buf b) ∨
    (s.buf b).dirty = true ∧ s.disks true (s.buf b).sector = (s.buf b).data ∧
    s.drive = .finished none ∨ (s.buf b).dirty = false ∧
    s.drive = .finished (some (s.disks true (s.buf b).sector))

end Ide

/-! ### Both drivers -/

/-- `ide.c` and `memide.c` on the same requests, in the order of the calls of `iderw`. -/
structure Drivers (β : Type) where
  ide : Ide β
  mem : β → Buf
  memdisk : Memdisk
  submitted : List β
  completed : List β

inductive DriverOp (β : Type)
  /-- The holder of a buffer changes it. -/
  | prepare (b : β) (x : Buf)
  /-- The holder of a buffer calls `iderw`. -/
  | submit (b : β)
  | finish
  | intr
  /-- The woken process runs. -/
  | resume (b : β)

/-- `iderw` of `memide.c`. -/
def memIderw {β : Type} [DecidableEq β] (m : (β → Buf) × Memdisk) (b : β) :
    Except BioStop ((β → Buf) × Memdisk) := do
  let (x, d) ← m.2.iderw (m.1 b)
  return (update m.1 b x, d)

namespace Drivers

variable {β : Type}

/-- Before the first request. -/
def boot (buf : β → Buf) (havedisk1 : Bool) (disk0 : UInt32 → Block) (disk1 : Memdisk) :
    Drivers β where
  ide := ⟨buf, ⟨none, fun _ => none⟩, fun _ => .out, havedisk1,
    fun one => if one then disk1.sectors else disk0, .idle⟩
  mem := buf
  memdisk := disk1
  submitted := []
  completed := []

/-- The requests in the queue. -/
def pending (y : Drivers β) : List β := y.submitted.drop y.completed.length

/-- **One event.** The drive handles sectors below 2^28, and it raises one interrupt for each
command. -/
def step [DecidableEq β] [Fintype β] (y : Drivers β) : DriverOp β → Except BioStop (Drivers β)
  | .prepare b x =>
    if y.ide.caller b = .out then
      .ok { y with ide := { y.ide with buf := update y.ide.buf b x }, mem := update y.mem b x }
    else .error .disabled
  | .submit b =>
    if y.ide.caller b = .out ∧ (y.ide.buf b).sector.toNat < 2 ^ 28 then do
      let ide ← y.ide.iderw b
      let (mem, memdisk) ← memIderw (y.mem, y.memdisk) b
      return { y with ide, mem, memdisk, submitted := y.submitted ++ [b] }
    else .error .disabled
  | .finish => do
    let ide ← y.ide.finish
    return { y with ide }
  | .intr =>
    match y.ide.drive with
    | .finished _ => do
      let ide ← y.ide.ideintr
      return { y with ide, completed := y.completed ++ y.ide.queue.head.toList }
    | _ => .error .disabled
  | .resume b =>
    if y.ide.caller b = .ready then .ok { y with ide := y.ide.await b } else .error .disabled

/-- **The drivers agree.** -/
structure Agree [DecidableEq β] (y : Drivers β) : Prop where
  order : y.submitted = y.completed ++ y.pending
  queue : y.ide.queue.Holds y.pending
  distinct : y.pending.Nodup
  active : y.ide.Active y.pending
  present : y.ide.havedisk1 = true
  /-- A process sleeps until its request is completed. -/
  sleeps : ∀ b ∈ y.pending, y.ide.caller b = .asleep ∧ y.ide.waits b = true
  /-- Afterwards it has been woken, and will return. -/
  woken : ∀ b, b ∉ y.pending → y.ide.caller b = .out ∨ y.ide.caller b = .ready ∧
    y.ide.waits b = false
  small : ∀ b ∈ y.pending, (y.ide.buf b).sector.toNat < 2 ^ 28
  /-- `memide.c` on the requests in the queue leads to where it is. -/
  replay :
    y.pending.foldlM memIderw (y.ide.buf, ⟨y.ide.disks true, y.memdisk.disksize⟩) =
    .ok (y.mem, y.memdisk)

theorem pending_eq {y : Drivers β} {l : List β} (order : y.submitted = y.completed ++ l) :
    y.pending = l := by
  unfold pending
  rw [order, List.drop_left]

/-- The requests and `memide.c` stay. -/
structure Same (y y' : Drivers β) : Prop where
  submitted : y'.submitted = y.submitted
  mem : y'.mem = y.mem
  memdisk : y'.memdisk = y.memdisk

theorem Same.trans {y y' y'' : Drivers β} (one : y.Same y') (two : y'.Same y'') : y.Same y'' :=
  ⟨two.submitted.trans one.submitted, two.mem.trans one.mem, two.memdisk.trans one.memdisk⟩

section Agree

variable [DecidableEq β] {y y' : Drivers β} {b : β} {l : List β} {m m' : β → Buf} {d d' : Memdisk}
    {e : DriverOp β}

theorem memIderw_ok (done : memIderw (m, d) b = .ok (m', d')) :
    ∃ x, d.iderw (m b) = .ok (x, d') ∧ m' = update m b x := by
  obtain ⟨⟨x, d₁⟩, transferred, rest⟩ := bind_eq_ok.mp done
  cases rest
  exact ⟨x, transferred, rfl⟩

theorem memIderw_of_ok {x : Buf} (done : d.iderw (m b) = .ok (x, d')) :
    memIderw (m, d) b = .ok (update m b x, d') := by
  unfold memIderw
  simp only [done, ok_bind]
  rfl

theorem replay_other (done : l.foldlM memIderw (m, d) = .ok (m', d')) (other : b ∉ l) :
    m' b = m b ∧ ∀ x, l.foldlM memIderw (update m b x, d) = .ok (update m' b x, d') := by
  induction l generalizing m d with
  | nil =>
    cases done
    exact ⟨rfl, fun _ => rfl⟩
  | cons a l ih =>
    obtain ⟨apart, other'⟩ := not_or.mp (fun member => other (List.mem_cons.mpr member))
    obtain ⟨⟨m₁, d₁⟩, first, rest⟩ := run_cons.mp done
    obtain ⟨z, transferred, rfl⟩ := memIderw_ok first
    obtain ⟨same, general⟩ := ih rest other'
    refine ⟨same.trans (update_of_ne apart ..), fun x => run_cons.mpr ⟨_, ?_, general x⟩⟩
    rw [update_comm (Ne.symm apart)]
    refine memIderw_of_ok ?_
    rw [update_of_ne (Ne.symm apart)]
    exact transferred

theorem Agree.served (agree : y.Agree) (done : b ∉ y.pending) : y.ide.buf b = y.mem b :=
  (replay_other agree.replay done).1.symm

theorem Agree.not_pending (agree : y.Agree) (awake : y.ide.caller b ≠ .asleep) : b ∉ y.pending :=
  fun member => awake (agree.sleeps b member).1

theorem Agree.intro (order : y.submitted = y.completed ++ l) (queue : y.ide.queue.Holds l)
    (distinct : l.Nodup) (active : y.ide.Active l) (present : y.ide.havedisk1 = true)
    (sleeps : ∀ b ∈ l, y.ide.caller b = .asleep ∧ y.ide.waits b = true)
    (woken : ∀ b, b ∉ l → y.ide.caller b = .out ∨ y.ide.caller b = .ready ∧ y.ide.waits b = false)
    (small : ∀ b ∈ l, (y.ide.buf b).sector.toNat < 2 ^ 28)
    (replay : l.foldlM memIderw (y.ide.buf, ⟨y.ide.disks true, y.memdisk.disksize⟩) =
      .ok (y.mem, y.memdisk)) : y.Agree := by
  cases pending_eq order
  exact ⟨order, queue, distinct, active, present, sleeps, woken, small, replay⟩

theorem Agree.prepare (agree : y.Agree) (free : y.ide.caller b = .out) (x : Buf) :
    Agree { y with
      ide := { y.ide with buf := update y.ide.buf b x }, mem := update y.mem b x } := by
  have fresh := agree.not_pending (b := b) (by rw [free]; exact Caller.noConfusion)
  have others : ∀ c ∈ y.pending, update y.ide.buf b x c = y.ide.buf c := fun c member => by
    refine update_of_ne ?_ ..
    rintro rfl
    exact fresh member
  refine ⟨agree.order, agree.queue, agree.distinct, ?_, agree.present,
    fun c member => ⟨(agree.sleeps c member).1, ?_⟩, fun c served => ?_, fun c member => ?_,
    (replay_other agree.replay fresh).2 x⟩
  · have active := agree.active
    show Ide.Active _ y.pending
    cases queue : y.pending with
    | nil =>
      rw [queue] at active
      exact active
    | cons c l =>
      rw [queue] at active
      have same := others c (queue ▸ List.mem_cons_self)
      unfold Ide.Active at active ⊢
      simp only [same]
      exact active
  · have waits := (agree.sleeps c member).2
    unfold Ide.waits at waits ⊢
    simp only [others c member]
    exact waits
  · by_cases here : c = b
    · exact .inl (here ▸ free)
    · have before := agree.woken c served
      unfold Ide.waits at before ⊢
      simp only [update_of_ne here]
      exact before
  · show (update y.ide.buf b x c).sector.toNat < 2 ^ 28
    rw [others c member]
    exact agree.small c member

/-- **What `iderw` does before it sleeps**: the request is the last of the queue, and it is started
when it is the only one. -/
theorem iderw_ok [Fintype β] {s : Ide β} (holds : s.queue.Holds l) (distinct : l.Nodup)
    (fresh : b ∉ l) (active : s.Active l) (busy : (s.buf b).busy = true) (waits : s.waits b = true)
    (present : s.havedisk1 = true) :
    ∃ queue drive, s.iderw b =
        .ok { s with queue, drive, caller := update s.caller b .asleep } ∧
      queue.Holds (l ++ [b]) ∧
      Ide.Active { s with queue, drive, caller := update s.caller b .asleep } (l ++ [b]) := by
  obtain ⟨queue, appended, holds'⟩ :=
    holds.append distinct fresh (Nat.lt_succ_of_le distinct.length_le_card)
  have todo : ¬ ((s.buf b).valid = true ∧ (s.buf b).dirty = false) := by
    rintro ⟨valid, clean⟩
    unfold Ide.waits at waits
    rw [valid, clean] at waits
    cases waits
  have sleeps : ∀ drive, Ide.await { s with queue, drive } b =
      { s with queue, drive, caller := update s.caller b .asleep } := fun drive =>
    congrArg (fun caller => { s with queue, drive, caller := update s.caller b caller })
      (if_pos waits)
  unfold Ide.iderw
  rw [appended, if_neg (by rw [busy]; exact Bool.noConfusion), if_neg todo,
    if_neg (fun absent => by rw [present] at absent; cases absent.2)]
  simp only
  cases l with
  | nil =>
    rw [if_pos holds'.1]
    exact ⟨queue, _, congrArg Except.ok (sleeps _), holds', .inl rfl⟩
  | cons a l =>
    have other : queue.head ≠ some b := by
      rw [holds'.1]
      rintro ⟨⟩
      exact fresh List.mem_cons_self
    rw [if_neg other]
    exact ⟨queue, _, congrArg Except.ok (sleeps _), holds', active⟩

/-- **What `memide.c` accepts, `ide.c` queues.** -/
theorem Agree.submit [Fintype β] (agree : y.Agree) (free : y.ide.caller b = .out)
    (small : (y.ide.buf b).sector.toNat < 2 ^ 28)
    (done : memIderw (y.mem, y.memdisk) b = .ok (m', d')) :
    ∃ y', y.step (.submit b) = .ok y' ∧ y'.Agree ∧ y'.pending = y.pending ++ [b] ∧ y'.mem = m' ∧
      y'.memdisk = d' := by
  have fresh := agree.not_pending (b := b) (by rw [free]; exact Caller.noConfusion)
  obtain ⟨x, transferred, _⟩ := memIderw_ok done
  obtain ⟨busy, todo, _, _, what⟩ := Memdisk.iderw_eq_ok.mp transferred
  have size : d'.disksize = y.memdisk.disksize := by
    rcases what with ⟨_, _, rfl⟩ | ⟨_, _, rfl⟩
    · rfl
    · rfl
  rw [← agree.served fresh] at busy todo
  have waits : y.ide.waits b = true := by
    unfold Ide.waits
    grind
  obtain ⟨queue, drive, queued, holds, active⟩ :=
    iderw_ok agree.queue agree.distinct fresh agree.active busy waits agree.present
  have order : y.submitted ++ [b] = y.completed ++ (y.pending ++ [b]) := by
    rw [← List.append_assoc, ← agree.order]
  refine ⟨{ y with
    ide := { y.ide with queue, drive, caller := update y.ide.caller b .asleep }
    mem := m', memdisk := d', submitted := y.submitted ++ [b] }, ?_, Agree.intro order holds
    (agree.distinct.append (List.nodup_singleton b) (List.disjoint_singleton.mpr fresh)) active
    agree.present (fun c member => ?_) (fun c served => ?_) (fun c member => ?_) ?_,
      pending_eq order,
    rfl, rfl⟩
  · unfold step
    simp only [if_pos (And.intro free small), queued, ok_bind, done]
    rfl
  · by_cases here : c = b
    · exact ⟨by rw [here]; exact update_self .., here ▸ waits⟩
    · rw [List.mem_append, List.mem_singleton] at member
      have before := agree.sleeps c (member.resolve_right here)
      exact ⟨(update_of_ne here ..).trans before.1, before.2⟩
  · rw [List.mem_append, List.mem_singleton, not_or] at served
    show update y.ide.caller b .asleep c = .out ∨ update y.ide.caller b .asleep c = .ready ∧ _
    rw [update_of_ne served.2]
    exact agree.woken c served.1
  · rcases List.mem_append.mp member with old | new
    · exact agree.small c old
    · rw [List.mem_singleton.mp new]
      exact small
  · rw [size]
    exact run_snoc.mpr ⟨_, agree.replay, done⟩

theorem Agree.head (agree : y.Agree) (first : y.pending = b :: l) :
    ∃ x d, Memdisk.iderw ⟨y.ide.disks true, y.memdisk.disksize⟩ (y.ide.buf b) = .ok (x, d) ∧
      l.foldlM memIderw (update y.ide.buf b x, d) = .ok (y.mem, y.memdisk) := by
  have replay := agree.replay
  rw [first] at replay
  obtain ⟨⟨m₁, d₁⟩, one, rest⟩ := run_cons.mp replay
  obtain ⟨x, transferred, rfl⟩ := memIderw_ok one
  exact ⟨x, d₁, transferred, rest⟩

theorem step_finish [Fintype β] {ide : Ide β} (finished : y.ide.finish = .ok ide) :
    y.step .finish = .ok { y with ide } := by
  show (y.ide.finish >>= fun ide => pure { y with ide }) = _
  rw [finished]
  rfl

theorem Agree.finish [Fintype β] (agree : y.Agree) (first : y.pending = b :: l)
    (running : y.ide.drive = Ide.command (y.ide.buf b)) :
    ∃ y' data, y.step .finish = .ok y' ∧ y'.Agree ∧ y'.pending = y.pending ∧ y.Same y' ∧
      y'.ide.drive = .finished data := by
  obtain ⟨x, d, transferred, rest⟩ := agree.head first
  obtain ⟨held, todo, isDev, inside, what⟩ := Memdisk.iderw_eq_ok.mp transferred
  obtain ⟨address, disk1⟩ := IdeRegs.of_correct isDev (agree.small b (first ▸ List.mem_cons_self))
  rcases what with ⟨dirty, rfl, rfl⟩ | ⟨clean, rfl, rfl⟩
  · -- the data reach the disk; written there again by `memide.c`, they change nothing
    set written := update (y.ide.disks true) (y.ide.buf b).sector (y.ide.buf b).data with isWritten
    have finished : y.ide.finish = .ok { y.ide with
        disks := update y.ide.disks true written, drive := .finished none } := by
      unfold Ide.finish
      rw [running]
      unfold Ide.command
      rw [if_pos dirty]
      simp only [address, disk1, isWritten]
    refine ⟨_, none, step_finish finished, ⟨agree.order, agree.queue, agree.distinct, ?_,
      agree.present, agree.sleeps, agree.woken, agree.small, ?_⟩, rfl, ⟨rfl, rfl, rfl⟩, rfl⟩
    · show Ide.Active _ y.pending
      rw [first]
      refine .inr (.inl ⟨dirty, ?_, rfl⟩)
      show update y.ide.disks true written true (y.ide.buf b).sector = (y.ide.buf b).data
      rw [update_self]
      exact update_self ..
    · show y.pending.foldlM memIderw
        (y.ide.buf, ⟨update y.ide.disks true written true, y.memdisk.disksize⟩) = _
      rw [first, update_self]
      refine run_cons.mpr ⟨_, memIderw_of_ok (Memdisk.iderw_eq_ok.mpr
        ⟨held, todo, isDev, inside, .inl ⟨dirty, rfl, rfl⟩⟩), ?_⟩
      unfold Memdisk.write at rest ⊢
      simp only [isWritten, update_idem]
      exact rest
  · have finished : y.ide.finish = .ok { y.ide with
        drive := .finished (some (y.ide.disks true (y.ide.buf b).sector)) } := by
      unfold Ide.finish
      rw [running]
      unfold Ide.command
      rw [if_neg (by rw [clean]; exact Bool.noConfusion)]
      simp only [address, disk1]
    refine ⟨_, _, step_finish finished, ⟨agree.order, agree.queue, agree.distinct, ?_,
      agree.present, agree.sleeps, agree.woken, agree.small, agree.replay⟩, rfl,
      ⟨rfl, rfl, rfl⟩, rfl⟩
    show Ide.Active _ y.pending
    rw [first]
    exact .inr (.inr ⟨clean, rfl⟩)

theorem Agree.done (agree : y.Agree) {data : Option Block} (raised : y.ide.drive = .finished data) :
    ∃ b l, y.pending = b :: l ∧
      l.foldlM memIderw (update y.ide.buf b { y.ide.buf b with
        data :=
  if (y.ide.buf b).dirty = false then y.ide.drive.insl (y.ide.buf b).data else (y.ide.buf b).data,
        valid := true, dirty := false }, ⟨y.ide.disks true, y.memdisk.disksize⟩) =
        .ok (y.mem, y.memdisk) := by
  have active := agree.active
  cases first : y.pending with
  | nil =>
    rw [first] at active
    cases raised.symm.trans active
  | cons b l =>
    rw [first] at active
    obtain ⟨x, d, transferred, rest⟩ := agree.head first
    obtain ⟨_, _, _, _, what⟩ := Memdisk.iderw_eq_ok.mp transferred
    refine ⟨b, l, rfl, ?_⟩
    rcases active with running | ⟨dirty, written, _⟩ | ⟨clean, read⟩
    · cases raised.symm.trans running
    · rw [if_neg (by rw [dirty]; exact Bool.noConfusion)]
      rcases what with ⟨_, rfl, rfl⟩ | ⟨clean, _⟩
      · have same : update (y.ide.disks true) (y.ide.buf b).sector (y.ide.buf b).data =
            y.ide.disks true := by
          rw [← written, update_eq_self]
        unfold Memdisk.write at rest
        rw [same] at rest
        exact rest
      · exact absurd (clean.symm.trans dirty) Bool.false_ne_true
    · rw [if_pos clean, read]
      rcases what with ⟨dirty, _⟩ | ⟨_, rfl, rfl⟩
      · exact absurd (clean.symm.trans dirty) Bool.false_ne_true
      · rw [clean] at rest
        exact rest

theorem Agree.intr [Fintype β] (agree : y.Agree) {data : Option Block}
    (raised : y.ide.drive = .finished data) :
    ∃ y' b, y.step .intr = .ok y' ∧ y'.Agree ∧ y.pending = b :: y'.pending ∧ y.Same y' := by
  obtain ⟨b, l, first, replay⟩ := agree.done raised
  have holds := agree.queue
  rw [first] at holds
  have distinct := agree.distinct
  rw [first] at distinct
  obtain ⟨apart, distinct'⟩ := List.nodup_cons.mp distinct
  set x : Buf := { y.ide.buf b with
    data :=
      if (y.ide.buf b).dirty = false then y.ide.drive.insl (y.ide.buf b).data
      else (y.ide.buf b).data,
    valid := true, dirty := false }
  have others : ∀ c ∈ l, update y.ide.buf b x c = y.ide.buf c := fun c member => by
    refine update_of_ne ?_ ..
    rintro rfl
    exact apart member
  have asleep := (agree.sleeps b (first ▸ List.mem_cons_self)).1
  -- the drive is idle, or has the command of the next request
  obtain ⟨drive, handled, active⟩ : ∃ drive, y.ide.ideintr = .ok { y.ide with
      queue := y.ide.queue.pop b, buf := update y.ide.buf b x,
      caller := update y.ide.caller b .ready, drive } ∧
      Ide.Active { y.ide with
        queue := y.ide.queue.pop b, buf := update y.ide.buf b x,
        caller := update y.ide.caller b .ready, drive } l := by
    unfold Ide.ideintr Ide.wakeup
    simp only [holds.head_cons, if_pos asleep]
    cases l with
    | nil => exact ⟨.idle, if_neg (not_not.mpr holds.pop.head_nil), rfl⟩
    | cons c l =>
      refine ⟨Ide.command (update y.ide.buf b x c), ?_, .inl rfl⟩
      simp only [holds.pop.head_cons]
      exact if_pos (Option.some_ne_none c)
  have taken : y.step .intr = .ok { y with
      ide := { y.ide with
        queue := y.ide.queue.pop b, buf := update y.ide.buf b x,
        caller := update y.ide.caller b .ready, drive }
      completed := y.completed ++ [b] } := by
    unfold step
    simp only [raised, handled, ok_bind, holds.head_cons]
    rfl
  have order : y.submitted = (y.completed ++ [b]) ++ l := by
    rw [List.append_assoc]
    exact agree.order.trans (congrArg (y.completed ++ ·) first)
  refine ⟨_, b, taken, Agree.intro order holds.pop distinct' active agree.present
    (fun c member => ?_) (fun c served => ?_) (fun c member => ?_) replay, ?_, ⟨rfl, rfl, rfl⟩⟩
  · have before := agree.sleeps c (first ▸ List.mem_cons_of_mem b member)
    have other : c ≠ b := by
      rintro rfl
      exact apart member
    unfold Ide.waits at before ⊢
    simp only [others c member, update_of_ne other]
    exact before
  · by_cases here : c = b
    · subst here
      refine .inr ⟨update_self .., ?_⟩
      unfold Ide.waits
      simp only [update_self]
      rfl
    · have before :=
        agree.woken c (by rw [first]; exact List.not_mem_cons_of_ne_of_not_mem here served)
      unfold Ide.waits at before ⊢
      simp only [update_of_ne here]
      exact before
  · show (update y.ide.buf b x c).sector.toNat < 2 ^ 28
    rw [others c member]
    exact agree.small c (first ▸ List.mem_cons_of_mem b member)
  · exact first.trans (congrArg (b :: ·) (pending_eq order).symm)

/-- **A woken process returns**: its request is completed. -/
theorem Agree.resume [Fintype β] (agree : y.Agree) (ready : y.ide.caller b = .ready) :
    ∃ y', y.step (.resume b) = .ok y' ∧ y'.Agree ∧ y'.ide.caller b = .out ∧ y.Same y' := by
  have served := agree.not_pending (b := b) (by rw [ready]; exact Caller.noConfusion)
  have done : y.ide.waits b = false := by
    rcases agree.woken b served with out | woken
    · cases ready.symm.trans out
    · exact woken.2
  have returns : y.ide.await b = { y.ide with caller := update y.ide.caller b .out } := by
    unfold Ide.await
    rw [if_neg (by rw [done]; exact Bool.noConfusion)]
  refine ⟨_, if_pos ready, ?_, by rw [returns]; exact update_self .., ⟨rfl, rfl, rfl⟩⟩
  rw [returns]
  refine ⟨agree.order, agree.queue, agree.distinct, agree.active, agree.present,
    fun c member => ⟨?_, (agree.sleeps c member).2⟩, fun c served => ?_, agree.small, agree.replay⟩
  · refine (update_of_ne ?_ ..).trans (agree.sleeps c member).1
    rintro rfl
    exact served member
  · show update y.ide.caller b .out c = .out ∨ update y.ide.caller b .out c = .ready ∧ _
    by_cases here : c = b
    · rw [here]
      exact .inl (update_self ..)
    · rw [update_of_ne here]
      exact agree.woken c served

theorem Agree.step [Fintype β] (agree : y.Agree) (taken : y.step e = .ok y') : y'.Agree := by
  cases e with
  | prepare b x =>
    unfold Drivers.step at taken
    simp only at taken
    split at taken
    · next free =>
      cases taken
      exact agree.prepare free x
    · cases taken
  | submit b =>
    have enabled := taken
    unfold Drivers.step at enabled
    simp only at enabled
    split at enabled
    · next ready =>
      obtain ⟨ide, queued, rest⟩ := bind_eq_ok.mp enabled
      obtain ⟨⟨m, d⟩, done, rest⟩ := bind_eq_ok.mp rest
      obtain ⟨y'', taken', agree', _⟩ := agree.submit ready.1 ready.2 done
      cases taken'.symm.trans taken
      exact agree'
    · cases enabled
  | finish =>
    have active := agree.active
    obtain ⟨ide, finished, rest⟩ := bind_eq_ok.mp taken
    unfold Ide.finish at finished
    cases first : y.pending with
    | nil =>
      rw [first] at active
      rw [show y.ide.drive = .idle from active] at finished
      cases finished
    | cons b l =>
      rw [first] at active
      rcases active with running | ⟨_, _, raised⟩ | ⟨_, raised⟩
      · obtain ⟨y'', _, taken', agree', _⟩ := agree.finish first running
        cases taken'.symm.trans taken
        exact agree'
      · rw [raised] at finished
        cases finished
      · rw [raised] at finished
        cases finished
  | intr =>
    cases raised : y.ide.drive with
    | finished data =>
      obtain ⟨y'', _, taken', agree', _⟩ := agree.intr raised
      cases taken'.symm.trans taken
      exact agree'
    | idle =>
      unfold Drivers.step at taken
      simp only [raised] at taken
      cases taken
    | executing regs data =>
      unfold Drivers.step at taken
      simp only [raised] at taken
      cases taken
  | resume b =>
    have enabled := taken
    unfold Drivers.step at enabled
    simp only at enabled
    split at enabled
    · next ready =>
      obtain ⟨y'', taken', agree', _⟩ := agree.resume ready
      cases taken'.symm.trans taken
      exact agree'
    · cases enabled

theorem agree_boot (buf : β → Buf) (disk0 : UInt32 → Block) (disk1 : Memdisk) :
    (boot buf true disk0 disk1).Agree where
  order := rfl
  queue := rfl
  distinct := List.nodup_nil
  active := rfl
  present := rfl
  sleeps _ member := (List.not_mem_nil member).elim
  woken _ _ := .inl rfl
  small _ member := (List.not_mem_nil member).elim
  replay := rfl

end Agree

end Drivers

/-! ### Runs -/

section Theorems

variable {β : Type} [DecidableEq β] [Fintype β]

theorem Drivers.Agree.next {y : Drivers β} {b : β} {l : List β} (agree : y.Agree)
    (first : y.pending = b :: l) :
    ∃ (es : List (DriverOp β)) (y' : Drivers β), (∀ e ∈ es, e = .finish ∨ e = .intr) ∧
      es.foldlM Drivers.step y = .ok y' ∧ y'.Agree ∧ y'.pending = l ∧ y.Same y' := by
  have raised : ∀ {z : Drivers β} {data}, z.Agree → z.pending = b :: l →
    z.ide.drive = .finished data →
      ∃ z', z.step .intr = .ok z' ∧ z'.Agree ∧ z'.pending = l ∧ z.Same z' := by
    intro z data agree first raised
    obtain ⟨z', b', taken, agree', first', same⟩ := agree.intr raised
    exact ⟨z', taken, agree', (List.cons.inj (first'.symm.trans first)).2, same⟩
  have active := agree.active
  rw [first] at active
  rcases active with running | ⟨_, _, done⟩ | ⟨_, done⟩
  · obtain ⟨y₁, data, taken, agree₁, queue, same, done⟩ := agree.finish first running
    obtain ⟨y₂, taken', agree₂, rest, same'⟩ := raised agree₁ (queue.trans first) done
    refine ⟨[.finish, .intr], y₂, ?_, run_cons.mpr ⟨y₁, taken, run_cons.mpr ⟨y₂, taken', rfl⟩⟩,
      agree₂, rest, same.trans same'⟩
    simp
  · obtain ⟨y₂, taken, rest⟩ := raised agree first done
    exact ⟨[.intr], y₂, by simp, run_cons.mpr ⟨y₂, taken, rfl⟩, rest⟩
  · obtain ⟨y₂, taken, rest⟩ := raised agree first done
    exact ⟨[.intr], y₂, by simp, run_cons.mpr ⟨y₂, taken, rfl⟩, rest⟩

theorem Drivers.Agree.drain {y : Drivers β} (agree : y.Agree) :
    ∃ (es : List (DriverOp β)) (y' : Drivers β), (∀ e ∈ es, e = .finish ∨ e = .intr) ∧
      es.foldlM Drivers.step y = .ok y' ∧ y'.completed = y.submitted ∧ y'.ide.buf = y.mem ∧
      y'.ide.disks true = y.memdisk.sectors := by
  generalize queue : y.pending = l
  induction l generalizing y with
  | nil =>
    have order := agree.order
    have replay := agree.replay
    rw [queue] at order replay
    rw [List.append_nil] at order
    obtain ⟨bufs, disk⟩ := Prod.mk.inj (Except.ok.inj replay)
    exact ⟨[], y, nofun, rfl, order.symm, bufs, congrArg Memdisk.sectors disk⟩
  | cons b l ih =>
    obtain ⟨es, y₁, only, run, agree₁, rest, same⟩ := agree.next queue
    obtain ⟨es', y₂, only', run', completed, bufs, disk⟩ := ih agree₁ rest
    refine ⟨es ++ es', y₂, fun e member => ?_, run_append.mpr ⟨y₁, run, run'⟩,
      completed.trans same.submitted, bufs.trans same.mem,
      disk.trans (congrArg Memdisk.sectors same.memdisk)⟩
    exact (List.mem_append.mp member).elim (only e) (only' e)

/-- **The two disk drivers agree.** In every state that calls of `iderw` and interrupts lead to, in
any order, the queue of `ide.c` holds the submitted requests that are not completed, in order and
without duplicates; its head is the command in progress; and `memide.c`, applied to what is in the
queue, leads from the buffers and the disk of `ide.c` to its own. The buffers that are not in the
queue are those of `memide.c` already, and the interrupts for the others bring everything there.
Every request that `memide.c` accepts is queued, its process sleeps until it is completed, and is
then woken and returns. -/
theorem drivers_agree (buf : β → Buf) (disk0 : UInt32 → Block) (disk1 : Memdisk)
    (es : List (DriverOp β)) :
    Always Drivers.step (fun y => y.Agree ∧ (∀ b, b ∉ y.pending → y.ide.buf b = y.mem b) ∧
      (∀ b r, y.ide.caller b = .out → (y.ide.buf b).sector.toNat < 2 ^ 28 →
        memIderw (y.mem, y.memdisk) b = .ok r →
        ∃ y', y.step (.submit b) = .ok y' ∧ y'.pending = y.pending ++ [b] ∧
          (y'.mem, y'.memdisk) = r) ∧
      (∀ b, y.ide.caller b = .ready →
        ∃ y', y.step (.resume b) = .ok y' ∧ y'.ide.caller b = .out) ∧
      ∃ (es : List (DriverOp β)) (y' : Drivers β), (∀ e ∈ es, e = .finish ∨ e = .intr) ∧
        es.foldlM Drivers.step y = .ok y' ∧ y'.completed = y.submitted ∧ y'.ide.buf = y.mem ∧
        y'.ide.disks true = y.memdisk.sectors) (.boot buf true disk0 disk1) es := by
  intro before _ m _ run
  have agree : m.Agree := run_invariant (fun _ y => y.Agree) (Drivers.agree_boot buf disk0 disk1)
    (fun _ _ _ _ agree taken => agree.step taken) before m run
  refine ⟨agree, fun b => agree.served, fun b r free small done => ?_, fun b ready => ?_,
    agree.drain⟩
  · obtain ⟨y', taken, _, pending, mem, memdisk⟩ := agree.submit free small done
    exact ⟨y', taken, pending, Prod.ext mem memdisk⟩
  · obtain ⟨y', taken, _, out, _⟩ := agree.resume ready
    exact ⟨y', taken, out⟩

/-- Two held buffers of sector 3 of disk 1: one to be written, one to be read. -/
def twoBufs (read : Bool) : Buf :=
  ⟨true, false, !read, 1, 3, if read then .zero else Block.zero.setWord 0 7⟩

/-- **A write and a read of one sector**, the second submitted while the first is under way: both
are completed in order, and the read gets what was written. -/
theorem drivers_agree_write_read : ∃ y, [DriverOp.submit false, .submit true, .finish, .intr,
      .resume false, .finish, .intr, .resume true].foldlM Drivers.step
        (.boot twoBufs true (fun _ => .zero) ⟨fun _ => .zero, 8⟩) = .ok y ∧
    y.completed = [false, true] ∧ ((y.ide.buf true).data.word 0 = 7) ∧
    (∀ b, y.ide.caller b = .out) ∧ y.Agree := by
  obtain ⟨y, run, ends⟩ :=
    exists_of_endsIn (x := [DriverOp.submit false, .submit true, .finish, .intr,
      .resume false, .finish, .intr, .resume true].foldlM Drivers.step
        (.boot twoBufs true (fun _ => .zero) ⟨fun _ => .zero, 8⟩)) (P := fun y =>
    decide (y.completed = [false, true] ∧ (y.ide.buf true).data.word 0 = 7 ∧
      ∀ b, y.ide.caller b = .out)) (by decide +kernel)
  obtain ⟨order, data, out⟩ := of_decide_eq_true ends
  exact ⟨y, run, order, data, out, (drivers_agree _ _ _ _ _ [] y (List.append_nil _) run).1⟩

end Theorems

end Xv6
