/-
**The multiprocessor tables: `mpsearch`, `mpconfig` and `mpinit` of `mp.c`.**

The firmware describes the machine in a table of entries that `mpinit` walks: it takes the type of
the entry at `p` and moves `p` by the size of such an entry. The loop has no step of its own, so an
entry of a type it does not know is looked at again and again; and each processor entry takes the
next place of `cpus`, which has `NCPU` of them.
-/

import Xv6.Param
import Mathlib.Data.BitVec
import Mathlib.Data.UInt

namespace Xv6.Mp

/-- From `param.h`. -/
def NCPU : Nat := 8

/-! ### The tables -/

/-- A `uchar *`. -/
abbrev Addr := BitVec 32

/-- What the bytes of the address space hold while `mpinit` runs. -/
abbrev Memory := Addr → UInt8

def p2v (a : Addr) : Addr := a + 0x80000000#32

/-- The `ushort` at `a`. -/
def ushort (mem : Memory) (a : Addr) : Nat := (mem a).toNat + 256 * (mem (a + 1)).toNat

/-- The `uint` at `a`. -/
def uint (mem : Memory) (a : Addr) : Addr :=
  BitVec.ofNat 32 (ushort mem a + 65536 * ushort mem (a + 2))

/-- The `n` bytes at `a`. -/
def bytesAt (mem : Memory) (a : Addr) (n : Nat) : List UInt8 :=
  (List.range n).map fun i => mem (a + BitVec.ofNat 32 i)

/-- The sum is cut to a `uchar` when it is returned, so it may as well be taken in bytes. -/
def sum (mem : Memory) (addr : Addr) (len : Nat) : UInt8 := (bytesAt mem addr len).sum

/-- `"_MP_"` at `p`, and the bytes of the structure add up to 0. -/
def isMp (mem : Memory) (p : Addr) : Bool :=
  bytesAt mem p 4 = [0x5F, 0x4D, 0x50, 0x5F] ∧ sum mem p 16 = 0

/-- The `struct mp` that starts at one of every 16 bytes of the `len` at `a`. -/
def mpsearch1 (mem : Memory) (a : Addr) (len : Nat) : Option Addr :=
  ((List.range (len / 16)).map fun i => p2v a + BitVec.ofNat 32 (16 * i)).find? (isMp mem)

def mpsearch (mem : Memory) : Option Addr :=
  let bda := p2v 0x400#32
  let ebda := ushort mem (bda + 0x0E) * 16
  let base := ushort mem (bda + 0x13) * 1024
  (if ebda ≠ 0 then mpsearch1 mem (BitVec.ofNat 32 ebda) 1024
    else mpsearch1 mem (BitVec.ofNat 32 base - 1024) 1024).or
  (mpsearch1 mem 0xF0000#32 0x10000)

/-- The fields of `struct mp` and `struct mpconf` that are looked at. -/
def physaddr (mem : Memory) (mp : Addr) : Addr := uint mem (mp + 4)

def imcrp (mem : Memory) (mp : Addr) : UInt8 := mem (mp + 12)

def length (mem : Memory) (conf : Addr) : Nat := ushort mem (conf + 4)

def version (mem : Memory) (conf : Addr) : UInt8 := mem (conf + 6)

def lapicaddr (mem : Memory) (conf : Addr) : Addr := uint mem (conf + 36)

/-- The signature, version and checksum tests of `mpconfig`. -/
def Passes (mem : Memory) (conf : Addr) : Prop :=
  bytesAt mem conf 4 = [0x50, 0x43, 0x4D, 0x50] ∧ (version mem conf = 1 ∨ version mem conf = 4) ∧
    sum mem conf (length mem conf) = 0

instance (mem : Memory) (conf : Addr) : Decidable (Passes mem conf) :=
  inferInstanceAs (Decidable (_ ∧ _ ∧ _))

/-- The floating pointer structure and the table it points to. -/
def mpconfig (mem : Memory) : Option (Addr × Addr) := do
  let mp ← mpsearch mem
  if physaddr mem mp = 0 then none
  else if Passes mem (p2v (physaddr mem mp)) then some (mp, p2v (physaddr mem mp)) else none

/-! ### `mpinit` -/

/-- What `mpinit` prints: `ncpu=%d apicid=%d` and `unknown config type %x`. -/
inductive Message where
  | apicid (ncpu : Nat) (apicid : UInt8)
  | unknown (type : UInt8)
deriving DecidableEq, Repr

/-- The globals of `mp.c`, `lapic`, the interrupt mode register, and what has been printed. `cpus`
is the `id` of each of its places; `bcpu` is an index of it, and may be `NCPU` where it points past
the end. -/
structure Globals where
  cpus : Vector Nat NCPU := Vector.replicate NCPU 0
  bcpu : Nat := 0
  ismp : Bool := false
  ncpu : Nat := 0
  ioapicid : UInt8 := 0
  lapic : Addr := 0
  masked : Bool := false
  printed : List Message := []
deriving DecidableEq, Repr

/-- The types of the entries. -/
def MPPROC : UInt8 := 0
def MPBUS : UInt8 := 1
def MPIOAPIC : UInt8 := 2
def MPIOINTR : UInt8 := 3
def MPLINTR : UInt8 := 4

/-- `proc->flags & MPBOOT`. -/
def isBoot (flags : UInt8) : Bool := flags &&& 0x02 ≠ 0

/-- What the processor entry at `p` says of the machine, before its place in `cpus` is taken. -/
def inspect (mem : Memory) (p : Addr) (g : Globals) : Globals :=
  let apicid := mem (p + 1)
  let g := if g.ncpu ≠ apicid.toNat then
    { g with ismp := false, printed := g.printed ++ [.apicid g.ncpu apicid] } else g
  if isBoot (mem (p + 3)) then { g with bcpu := g.ncpu } else g

/-- The case of a processor entry; `none` is the store to `cpus[ncpu]` with no such place. -/
def processor (mem : Memory) (p : Addr) (g : Globals) : Option Globals :=
  let g := inspect mem p g
  if room : g.ncpu < NCPU then
    some { g with cpus := g.cpus.set g.ncpu g.ncpu room, ncpu := g.ncpu + 1 }
  else none

/-- One turn of the loop: the globals after it, and `p`. -/
def turn (mem : Memory) (p : Addr) (g : Globals) : Option (Globals × Addr) :=
  if mem p = MPPROC then (processor mem p g).map (·, p + 20)
  else if mem p = MPIOAPIC then some ({ g with ioapicid := mem (p + 1) }, p + 8)
  else if mem p = MPBUS ∨ mem p = MPIOINTR ∨ mem p = MPLINTR then some (g, p + 8)
  else some ({ g with ismp := false, printed := g.printed ++ [.unknown (mem p)] }, p)

/-- How the loop comes to an end. -/
inductive Ended where
  | finished (g : Globals)
  | overrun
deriving DecidableEq, Repr

/-- At most `fuel` tests of `p < e`: `none` is a loop that has not ended by then. -/
def parse (mem : Memory) (e : Addr) : Nat → Addr → Globals → Option Ended
  | 0, _, _ => none
  | fuel + 1, p, g =>
    if p < e then
      match turn mem p g with
      | none => some .overrun
      | some (g, p) => parse mem e fuel p g
    else some (.finished g)

/-- What `mpinit` does after the loop. -/
def settle (mem : Memory) (mp : Addr) (g : Globals) : Globals :=
  if g.ismp then { g with masked := g.masked || imcrp mem mp ≠ 0 }
  else { g with ncpu := 1, lapic := 0, ioapicid := 0 }

/-- The loop of `mpinit` over the table at `conf`. -/
def parseTable (mem : Memory) (conf : Addr) (fuel : Nat) : Option Ended :=
  parse mem (conf + BitVec.ofNat 32 (length mem conf)) fuel (conf + 44)
    { ismp := true, lapic := lapicaddr mem conf }

def mpinit (mem : Memory) (fuel : Nat) : Option Ended :=
  match mpconfig mem with
  | none => some (.finished {})
  | some (mp, conf) =>
    (parseTable mem conf fuel).map fun
      | .finished g => .finished (settle mem mp g)
      | .overrun => .overrun

/-! ### The entries of a table -/

/-- The size of an entry of each type there is. -/
def sizeOf? (type : UInt8) : Option Addr :=
  if type = MPPROC then some 20
  else if type = MPIOAPIC ∨ type = MPBUS ∨ type = MPIOINTR ∨ type = MPLINTR then some 8
  else none

/-- **From `p` to `e` lie entries of known types**, these one after the other. The last may reach
past `e`. -/
inductive Entries (mem : Memory) (e : Addr) : Addr → List UInt8 → Prop where
  | nil {p : Addr} (past : ¬ p < e) : Entries mem e p []
  | cons {p size : Addr} {types : List UInt8} (inside : p < e) (known : sizeOf? (mem p) = some size)
      (rest : Entries mem e (p + size) types) : Entries mem e p (mem p :: types)

/-- The table at `conf`: its entries up to its end are of types the loop knows, at most `NCPU` of
them processors. -/
def Survivable (mem : Memory) (conf : Addr) : Prop :=
  ∃ types, Entries mem (conf + BitVec.ofNat 32 (length mem conf)) (conf + 44) types ∧
    types.count MPPROC ≤ NCPU

/-- The loop ends, and no store is past `cpus`. -/
def Survives (mem : Memory) (e p : Addr) (g : Globals) : Prop :=
  ∃ fuel g', parse mem e fuel p g = some (.finished g')

variable {mem : Memory} {e p : Addr} {g : Globals}

@[simp]
theorem ncpu_inspect : (inspect mem p g).ncpu = g.ncpu := by
  unfold inspect
  dsimp only
  split_ifs <;> rfl

theorem processor_some {g' : Globals} (taken : processor mem p g = some g') :
    g.ncpu < NCPU ∧ g'.ncpu = g.ncpu + 1 := by
  obtain ⟨room, same⟩ := Option.dite_none_right_eq_some.mp taken
  cases same
  exact ⟨by simpa using room, by simp⟩

theorem exists_processor (room : g.ncpu < NCPU) : ∃ g', processor mem p g = some g' :=
  ⟨_, dif_pos (by simpa using room)⟩

/-- **One turn at a known entry** moves on by its size; only a processor takes a place of `cpus`,
and there is one. -/
theorem turn_known {size p' : Addr} {g' : Globals} (known : sizeOf? (mem p) = some size)
    (turned : turn mem p g = some (g', p')) :
    p' = p + size ∧ g'.ncpu = g.ncpu + (if mem p = MPPROC then 1 else 0) ∧
      (mem p = MPPROC → g.ncpu < NCPU) := by
  unfold turn at turned
  unfold sizeOf? at known
  by_cases proc : mem p = MPPROC
  · rw [if_pos proc] at turned known
    obtain ⟨g₁, taken, same⟩ := Option.map_eq_some_iff.mp turned
    cases same
    cases known
    rw [if_pos proc]
    exact ⟨rfl, (processor_some taken).2, fun _ => (processor_some taken).1⟩
  · rw [if_neg proc] at turned known
    rw [if_neg proc]
    split_ifs at known turned <;> cases known <;> cases turned <;>
      first | exact ⟨rfl, rfl, fun h => absurd h proc⟩ | (exfalso; tauto)

theorem exists_turn (room : mem p = MPPROC → g.ncpu < NCPU) :
    ∃ g' p', turn mem p g = some (g', p') := by
  unfold turn
  by_cases proc : mem p = MPPROC
  · obtain ⟨g', taken⟩ := exists_processor (room proc)
    exact ⟨g', p + 20, by rw [if_pos proc, taken]; rfl⟩
  · rw [if_neg proc]
    split_ifs <;> exact ⟨_, _, rfl⟩

theorem turn_unknown (unknown : sizeOf? (mem p) = none) : ∃ g', turn mem p g = some (g', p) := by
  unfold sizeOf? at unknown
  unfold turn
  split_ifs at unknown with proc others
  rw [if_neg proc, if_neg (fun h => others (.inl h)), if_neg (fun h => others (.inr h))]
  exact ⟨_, rfl⟩

theorem parse_unknown (inside : p < e) (unknown : sizeOf? (mem p) = none) (fuel : Nat) :
    ∀ g, parse mem e fuel p g = none := by
  induction fuel with
  | zero => exact fun _ => rfl
  | succ fuel ih =>
    intro g
    obtain ⟨g', turned⟩ := turn_unknown (g := g) unknown
    simp only [parse, if_pos inside, turned, ih]

/-- **What the loop gets through**: entries of known types, with a place for each processor among
them. -/
theorem entries_of_parse {g' : Globals} {fuel : Nat} : ∀ {p : Addr} {g : Globals},
    parse mem e fuel p g = some (.finished g') →
      ∃ types, Entries mem e p types ∧ g.ncpu + types.count MPPROC ≤ max NCPU g.ncpu := by
  induction fuel with
  | zero => exact fun ran => absurd ran (by simp [parse])
  | succ fuel ih =>
    intro p g ran
    by_cases inside : p < e
    · cases known : sizeOf? (mem p) with
      | none => exact absurd ran (by simp [parse_unknown inside known])
      | some size =>
        simp only [parse, if_pos inside] at ran
        cases turned : turn mem p g with
        | none => rw [turned] at ran; exact absurd ran (by simp)
        | some next =>
          rw [turned] at ran
          obtain ⟨moved, counted, room⟩ := turn_known known turned
          obtain ⟨types, entries, fits⟩ := ih ran
          rw [moved] at entries
          refine ⟨mem p :: types, .cons inside known entries, ?_⟩
          rw [counted] at fits
          by_cases proc : mem p = MPPROC
          · have := room proc
            rw [if_pos proc] at fits
            rw [proc, List.count_cons_self]
            omega
          · rw [if_neg proc] at fits
            rw [List.count_cons_of_ne proc]
            omega
    · exact ⟨[], .nil inside, by simp⟩

theorem Entries.survives {types : List UInt8} (entries : Entries mem e p types) :
    ∀ {g : Globals}, g.ncpu + types.count MPPROC ≤ NCPU → Survives mem e p g := by
  induction entries with
  | nil past => exact fun {g} _ => ⟨1, g, by simp only [parse, if_neg past]⟩
  | @cons p size types inside known _ ih =>
    intro g fits
    have room : mem p = MPPROC → g.ncpu < NCPU := by
      intro proc
      rw [proc, List.count_cons_self] at fits
      omega
    obtain ⟨g', p', turned⟩ := exists_turn (g := g) room
    obtain ⟨moved, counted, -⟩ := turn_known known turned
    have left : g'.ncpu + types.count MPPROC ≤ NCPU := by
      rw [counted]
      by_cases proc : mem p = MPPROC
      · rw [proc, List.count_cons_self] at fits
        rw [if_pos proc]
        omega
      · rw [List.count_cons_of_ne proc] at fits
        rwa [if_neg proc, Nat.add_zero]
    obtain ⟨fuel, g'', ran⟩ := ih left
    subst moved
    exact ⟨fuel + 1, g'', by simp only [parse, if_pos inside, turned, ran]⟩

/-- A machine whose firmware puts its tables at the start of the EBDA, at `0x9FC00`: the floating
pointer structure and, right after it, a table of `len` bytes with checksum byte `check` and these
entries. -/
def firmware (len check : UInt8) (entries : List UInt8) : Memory := fun a =>
  if a = p2v 0x40E#32 then 0xC0
  else if a = p2v 0x40F#32 then 0x9F
  else ([0x5F, 0x4D, 0x50, 0x5F, 0x10, 0xFC, 0x09, 0x00, 1, 4, 0x8B, 0, 0, 0, 0, 0] ++
    [0x50, 0x43, 0x4D, 0x50, len, 0, 4, check] ++ List.replicate 28 0 ++ [0, 0, 0xE0, 0xFE] ++
    List.replicate 4 0 ++ entries).getD (a - p2v 0x9FC00#32).toNat 0

/-- The processor entry of the processor with this `apicid`. -/
def cpuEntry (apicid : UInt8) : List UInt8 := [MPPROC, apicid, 0x14, 1] ++ List.replicate 16 0

/-- **For which tables `mpinit` survives.** Whatever table `mpconfig` accepts, the loop of `mpinit`
ends and stores only to places of `cpus` just when its entries are all of known types and at most
`NCPU` of them are processors. -/
theorem mpinit_survives (mem : Memory) (mp conf : Addr)
    (accepted : mpconfig mem = some (mp, conf)) :
    (∃ fuel g, mpinit mem fuel = some (.finished g)) ↔ Survivable mem conf := by
  constructor
  · rintro ⟨fuel, g, ran⟩
    simp only [mpinit, accepted, parseTable] at ran
    obtain ⟨ended, parsed, same⟩ := Option.map_eq_some_iff.mp ran
    cases ended with
    | overrun => exact absurd same (by simp)
    | finished g' =>
      obtain ⟨types, entries, fits⟩ := entries_of_parse parsed
      exact ⟨types, entries, by simpa using fits⟩
  · rintro ⟨types, entries, fits⟩
    obtain ⟨fuel, g, ran⟩ := entries.survives (g := { ismp := true, lapic := lapicaddr mem conf })
      (by simpa using fits)
    exact ⟨fuel, settle mem mp g, by simp only [mpinit, accepted, parseTable, ran, Option.map_some]⟩

/-- A table with one processor: `mpinit` ends, so the table is survivable. -/
theorem mpinit_survives_one : (∃ g, mpinit (firmware 64 0x99 (cpuEntry 0)) 2 = some (.finished g)) ∧
    Survivable (firmware 64 0x99 (cpuEntry 0)) (p2v 0x9FC10#32) := by
  have ends : ∃ g, mpinit (firmware 64 0x99 (cpuEntry 0)) 2 = some (.finished g) := by
    have some' : (mpinit (firmware 64 0x99 (cpuEntry 0)) 2).isSome = true ∧
      mpinit (firmware 64 0x99 (cpuEntry 0)) 2 ≠ some .overrun := by decide +kernel
    obtain ⟨ended, found⟩ := Option.isSome_iff_exists.mp some'.1
    cases ended with
    | finished g => exact ⟨g, found⟩
    | overrun => exact absurd found some'.2
  exact ⟨ends, (mpinit_survives _ (p2v 0x9FC00#32) _ (by decide +kernel)).mp ⟨2, ends⟩⟩

/-- **Two tables that `mpinit` does not survive.** With nine processors, the last is stored to
`cpus[8]`; with one entry of type 5, the loop never ends. Both tables pass the tests of
`mpconfig`. -/
theorem mpinit_overruns :
    mpinit (firmware 224 0x2D ((List.range 9).map fun i => cpuEntry i.toUInt8).flatten) 9 =
      some .overrun ∧
    (mpconfig (firmware 52 0xB5 (5 :: List.replicate 7 0))).isSome ∧
    ∀ fuel, mpinit (firmware 52 0xB5 (5 :: List.replicate 7 0)) fuel = none := by
  have accepted : mpconfig (firmware 52 0xB5 (5 :: List.replicate 7 0)) =
      some (p2v 0x9FC00#32, p2v 0x9FC10#32) := by decide +kernel
  refine ⟨by decide +kernel, by rw [accepted]; exact Option.isSome_some, fun fuel => ?_⟩
  have unknown :
      sizeOf? (firmware 52 0xB5 (5 :: List.replicate 7 0) (p2v 0x9FC10#32 + 44)) = none := by
    decide +kernel
  simp only [mpinit, accepted, parseTable]
  exact congrArg _ (parse_unknown (by decide +kernel) unknown fuel _)

end Xv6.Mp
