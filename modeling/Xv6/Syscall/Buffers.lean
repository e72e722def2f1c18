/-
**The user buffers of `sys_read`, `sys_write`, `sys_fstat` and `sys_pipe`.**

`sys_read` and `sys_write` pass `argptr` their byte count, an `int`. A negative count passes the
check for a buffer of any size (`argptr` adds it modulo `2 ^ 32`), and `readi` then takes it for a
large `uint` and copies all bytes up to the end of the file.

A completed call returns the bytes it stored, with their addresses. That `sys_write` reads inside is
said by what its result depends on: nothing outside.
-/

import Xv6.Kernel.Ownership
import Xv6.Syscall.System

namespace Xv6

open Lib

/-- The bytes of a user buffer that are stored to, with what is stored there. -/
abbrev Stores := List (BitVec 32 × UInt8)

/-- Bytes stored one after the other from `addr` on. -/
def storesAt (addr : BitVec 32) (bytes : List UInt8) : Stores :=
  bytes.zipIdx.map fun (b, i) => (addr + BitVec.ofNat 32 i, b)

/-- What `stati` stores to a `struct stat`, which has two bytes of padding behind `type` and
`nlink`. -/
def stati (ip : Inode) (st : BitVec 32) : Stores :=
  storesAt (st + 4) (le32 (UInt32.ofNat ip.dev)) ++ storesAt (st + 8)
    (le32 (UInt32.ofNat ip.inum)) ++ storesAt st (le16 ip.din.type.toUInt16) ++ storesAt (st + 12)
      (le16 ip.din.nlink.toUInt16) ++
    storesAt (st + 16) (le32 ip.din.size)

namespace System

/-- `fileread`: the result and the bytes stored to `addr`. -/
def fileread (y : System) (p : Fin NPROC) (wakes : List (Bool × Pipe)) (f : Fslot) (n : BitVec 32) :
    Except Halt (Int × List UInt8 × System) :=
  let file := y.ftable f
  if file.readable = false then .ok (-1, [], y)
  else
    match file.type with
    | .pipe => do
      let (r, bytes, pipe) ← (y.pipes file.pipe).read n.toInt wakes (y.proc p).killed
      return (r, bytes, y.setPipe file.pipe pipe)
    | .inode => do
      let k ← y.kernel.ilock file.ip
      let (r, bytes, k) ← k.readi file.ip file.off.toNat n.toNat
      let file := if 0 < r then { file with off := file.off + UInt32.ofInt r } else file
      let k ← k.iunlock file.ip
      return (r, bytes, { y with kernel := k }.setFile f file)
    | .none => .error (.panic .fileread)

/-- `filewrite`. `Kernel.filewrite` has only the result of `pipewrite`; the pipe is put in here. -/
def filewrite (y : System) (p : Fin NPROC) (wakes : List (Bool × Pipe)) (f : Fslot)
    (addr : Nat → UInt8) (n : BitVec 32) : Except Halt (Int × System) := do
  let pipewrite (id : Nat) (addr : Nat → UInt8) (n : Int) : Except Halt (Int × Pipe) :=
    (y.pipes id).write addr n wakes (y.proc p).killed
  let (r, file, k, _) ← y.kernel.filewrite (fun id addr n => Prod.fst <$> pipewrite id addr n)
    (y.ftable f) addr n.toInt
  let y := { y with kernel := k }.setFile f file
  if file.writable ∧ file.type = .pipe then do
    let (_, pipe) ← pipewrite file.pipe addr n.toInt
    return (r, y.setPipe file.pipe pipe)
  else return (r, y)

/-- `filestat`: the result and the bytes stored to `st`. -/
def filestat (y : System) (f : Fslot) (st : BitVec 32) : Except Halt (Int × Stores × System) :=
  let file := y.ftable f
  if file.type = .inode then do
    let k ← y.kernel.ilock file.ip
    let stores := stati (k.icache file.ip) st
    let k ← k.iunlock file.ip
    return (0, stores, { y with kernel := k })
  else .ok (-1, [], y)

/-- `pipealloc`; `page` is what `kalloc` returns. -/
def pipealloc (y : System) (page : Option Nat) : Except Halt (Option (Fslot × Fslot) × System) :=
  match y.filealloc with
  | none => .ok (none, y)
  | some (f0, y) =>
    match y.filealloc with
    | none => do
      let y ← y.fileclose f0
      return (none, y)
    | some (f1, y) =>
      match page with
      | none => do
        let y ← y.fileclose f0
        let y ← y.fileclose f1
        return (none, y)
      | some id =>
        let y := y.setPipe id { y.pipes id with
          readopen := true, writeopen := true, nwrite := 0, nread := 0 }
        let y := y.setFile f0 { y.ftable f0 with
          type := .pipe, readable := true, writable := false, pipe := id }
        let y := y.setFile f1 { y.ftable f1 with
          type := .pipe, readable := false, writable := true, pipe := id }
        .ok (some (f0, f1), y)

/-! ### The system calls -/

/-- The arguments of `sys_read` and `sys_write`. -/
def bufferArgs (y : System) (m : Memory) (p : Fin NPROC) :
    Option (Fslot × BitVec 32 × BitVec 32) := do
  let (_, f) ← y.argfd m p 0
  let n ← argint m (y.proc p).sz (y.proc p).esp 2
  let addr ← argptr m (y.proc p).sz (y.proc p).esp 1 n
  return (f, n, addr)

/-- `sys_read`: the result and the bytes stored. -/
def sysRead (y : System) (m : Memory) (p : Fin NPROC) (wakes : List (Bool × Pipe)) :
    Except Halt (Int × Stores × System) :=
  match y.bufferArgs m p with
  | none => .ok (-1, [], y)
  | some (f, n, addr) => do
    let (r, bytes, y) ← y.fileread p wakes f n
    return (r, storesAt addr bytes, y)

/-- `sys_write`. -/
def sysWrite (y : System) (m : Memory) (p : Fin NPROC) (wakes : List (Bool × Pipe)) :
    Except Halt (Int × System) :=
  match y.bufferArgs m p with
  | none => .ok (-1, y)
  | some (f, n, addr) => y.filewrite p wakes f (fun i => .ofBitVec (m (addr + BitVec.ofNat 32 i))) n

/-- `sys_fstat`: the result and the bytes stored; a `struct stat` has 20 bytes. -/
def sysFstat (y : System) (m : Memory) (p : Fin NPROC) : Except Halt (Int × Stores × System) :=
  match y.argfd m p 0 with
  | none => .ok (-1, [], y)
  | some (_, f) =>
    match argptr m (y.proc p).sz (y.proc p).esp 1 20 with
    | none => .ok (-1, [], y)
    | some st => y.filestat f st

/-- `sys_pipe` behind `pipealloc`. -/
def pipeFds (y : System) (p : Fin NPROC) (rf wf : Fslot) (fd : BitVec 32) :
    Except Halt (Int × Stores × System) :=
  match y.fdalloc p rf with
  | none => do
    let y ← y.fileclose rf
    let y ← y.fileclose wf
    return (-1, [], y)
  | some (fd0, y) =>
    match y.fdalloc p wf with
    | none => do
      let y ← (y.setOfile p fd0 none).fileclose rf
      let y ← y.fileclose wf
      return (-1, [], y)
    | some (fd1, y) =>
      .ok (0, storesAt fd (le32 (UInt32.ofNat fd0)) ++ storesAt (fd + 4)
        (le32 (UInt32.ofNat fd1)), y)

/-- `sys_pipe`: the result and the bytes stored. -/
def sysPipe (y : System) (m : Memory) (p : Fin NPROC) (page : Option Nat) :
    Except Halt (Int × Stores × System) :=
  match argptr m (y.proc p).sz (y.proc p).esp 0 8 with
  | none => .ok (-1, [], y)
  | some fd => do
    let (files, y) ← y.pipealloc page
    match files with
    | none => return (-1, [], y)
    | some (rf, wf) => y.pipeFds p rf wf fd

end System

/-! ### Buffers that were checked -/

/-- All bytes lie in `[0, sz)`. -/
def Stores.Inside (sz : BitVec 32) (stores : Stores) : Prop := ∀ w ∈ stores, w.1 < sz

section Inside

variable {sz addr : BitVec 32} {bytes : List UInt8}

theorem Stores.Inside.append {first second : Stores} (one : Stores.Inside sz first)
    (two : Stores.Inside sz second) : Stores.Inside sz (first ++ second) := by
  intro w here
  rcases List.mem_append.mp here with left | right
  · exact one w left
  · exact two w right

theorem inside_storesAt (fits : addr.toNat + bytes.length ≤ sz.toNat) :
    Stores.Inside sz (storesAt addr bytes) := by
  intro w here
  obtain ⟨⟨b, i⟩, at', rfl⟩ := List.mem_map.mp here
  have below := List.snd_lt_of_mem_zipIdx at'
  have bound := sz.isLt
  rw [BitVec.lt_def]
  rw [BitVec.toNat_add, BitVec.toNat_ofNat]
  rw [Nat.mod_eq_of_lt (show i < 2 ^ 32 by omega), Nat.mod_eq_of_lt (by omega)]
  omega

/-- **A buffer that starts inside** is stored to inside exactly when it ends there. -/
theorem inside_storesAt_iff (start : addr < sz) :
    Stores.Inside sz (storesAt addr bytes) ↔ addr.toNat + bytes.length ≤ sz.toNat := by
  refine ⟨fun inside => ?_, inside_storesAt⟩
  by_contra beyond
  have start' := BitVec.lt_def.mp start
  have bound := sz.isLt
  -- the byte at `sz` itself is stored to
  have there : (sz, bytes[sz.toNat - addr.toNat]) ∈ storesAt addr bytes := by
    refine List.mem_map.mpr ⟨(bytes[sz.toNat - addr.toNat], sz.toNat - addr.toNat), ?_, ?_⟩
    · exact List.mk_mem_zipIdx_iff_getElem?.mpr (List.getElem?_eq_getElem (by omega))
    · refine Prod.ext (BitVec.eq_of_toNat_eq ?_) rfl
      show (addr + BitVec.ofNat 32 (sz.toNat - addr.toNat)).toNat = sz.toNat
      rw [BitVec.toNat_add, BitVec.toNat_ofNat, Nat.mod_eq_of_lt (show _ < 2 ^ 32 by omega),
        Nat.mod_eq_of_lt (by omega)]
      omega
  exact absurd (inside _ there) (by simp)

end Inside

/-! ### How many bytes `readi` stores -/

theorem Fs.length_readiLoop {s s' : Fs} {ip ip' : Inode} {off n : Nat} {bytes : List UInt8}
    (done : s.readiLoop ip off n = .ok (bytes, ip', s')) : bytes.length = n := by
  induction n using Nat.strong_induction_on generalizing s ip off bytes with
  | h n ih =>
    rw [Fs.readiLoop] at done
    split at done
    · cases done
      exact Eq.symm ‹n = 0›
    · obtain ⟨⟨b, ip₁, s₁⟩, _, done⟩ := bind_eq_ok.mp done
      obtain ⟨⟨rest, ip₂, s₂⟩, tail, done⟩ := bind_eq_ok.mp done
      cases done
      have inside : off % BSIZE < BSIZE := Nat.mod_lt _ (by decide)
      have last := ih (n - min n (BSIZE - off % BSIZE)) (by omega) tail
      rw [List.length_append, Block.length_read (by omega), last]
      omega

/-- `readi` of a file or directory stores the bytes up to the end of the file, if neither the offset
lies behind it nor the end of the buffer wraps around. -/
def readCount (size off n : Nat) : Nat :=
  if off ≤ size ∧ off + n < 2 ^ 32 then min n (size - off) else 0

theorem Fs.length_readi {s s' : Fs} {ip ip' : Inode} {off n : Nat} {r : Int} {bytes : List UInt8}
    (stored : ip.din.type ≠ T_DEV) (off32 : off < 2 ^ 32) (n32 : n < 2 ^ 32)
    (done : s.readi ip off n = .ok (r, bytes, ip', s')) :
    bytes.length = readCount ip.din.size.toNat off n := by
  have size32 := ip.din.size.toNat_lt
  unfold Fs.readi at done
  unfold readCount
  rw [if_neg stored] at done
  split at done
  next outside =>
    cases done
    rw [if_neg (by omega)]
    rfl
  next inside =>
    obtain ⟨⟨copied, ip₁, s₁⟩, loop, done⟩ := bind_eq_ok.mp done
    cases done
    have fits : off ≤ ip.din.size.toNat ∧ off + n < 2 ^ 32 := by omega
    rw [Fs.length_readiLoop loop, if_pos fits]
    split <;> omega

namespace System

variable {y y' : System} {m m' : Memory} {p : Fin NPROC} {wakes : List (Bool × Pipe)} {f : Fslot}
  {n addr : BitVec 32} {r : Int} {bytes : List UInt8} {stores : Stores}

/-- The console is the only device that can be read. -/
def ConsoleOnly (y : System) : Prop :=
  ∀ major read, (y.kernel.fs.devsw major).read = some read → ∃ typed, read = consoleread typed

/-- `fileread` takes its bytes from the blocks of a file, not from a pipe or a device. -/
def FromDisk (y : System) (f : Fslot) : Prop :=
  (y.ftable f).readable = true ∧ (y.ftable f).type = .inode ∧
    (y.kernel.loaded (y.ftable f).ip).din.type ≠ T_DEV

theorem din_ilock {k k' : Kernel} {ip : Slot} (locked : k.ilock ip = .ok k') :
    (k.loaded ip).din = (k'.icache ip).din := by
  rw [Kernel.ilock_eq_ok locked]
  show _ = (Function.update k.icache ip _ ip).din
  rw [Function.update_self]

theorem length_fileread_disk (disk : y.FromDisk f)
    (done : y.fileread p wakes f n = .ok (r, bytes, y')) :
    bytes.length = readCount (y.kernel.loaded (y.ftable f).ip).din.size.toNat
      (y.ftable f).off.toNat n.toNat := by
  obtain ⟨readable, type, stored⟩ := disk
  unfold fileread at done
  simp only [readable, type, Bool.true_eq_false, if_false] at done
  obtain ⟨k₁, locked, done⟩ := bind_eq_ok.mp done
  obtain ⟨⟨r', copied, k₂⟩, read, done⟩ := bind_eq_ok.mp done
  obtain ⟨k₃, _, done⟩ := bind_eq_ok.mp done
  cases done
  obtain ⟨⟨_, _, node, s⟩, read', same⟩ := bind_eq_ok.mp read
  cases same
  rw [din_ilock locked] at stored
  rw [Halt.lift_eq_ok] at read'
  rw [din_ilock locked]
  exact Fs.length_readi stored (y.ftable f).off.toNat_lt n.isLt read'

theorem length_fileread_le (console : y.ConsoleOnly) (other : ¬ y.FromDisk f)
    (done : y.fileread p wakes f n = .ok (r, bytes, y')) : bytes.length ≤ n.toInt.toNat := by
  unfold fileread at done
  dsimp only at done
  split at done
  next => 
    cases done
    exact Nat.zero_le _
  next readable =>
    split at done
    next =>
      obtain ⟨⟨r', copied, pipe⟩, read, done⟩ := bind_eq_ok.mp done
      cases done
      exact Pipe.length_read_le read
    next type =>
      have device : (y.kernel.loaded (y.ftable f).ip).din.type = T_DEV := by
        by_contra stored
        exact other ⟨by simpa using readable, type, stored⟩
      obtain ⟨k₁, locked, done⟩ := bind_eq_ok.mp done
      obtain ⟨⟨r', copied, k₂⟩, read, done⟩ := bind_eq_ok.mp done
      obtain ⟨k₃, _, done⟩ := bind_eq_ok.mp done
      cases done
      obtain ⟨⟨_, _, node, s⟩, read', same⟩ := bind_eq_ok.mp read
      cases same
      have fs : k₁.fs = y.kernel.fs := by
        rw [Kernel.ilock_eq_ok locked]
        rfl
      rw [din_ilock locked] at device
      rw [Halt.lift_eq_ok, fs, Fs.readi, if_pos device] at read'
      split at read'
      · cases read'
        exact Nat.zero_le _
      · split at read'
        · cases read'
          exact Nat.zero_le _
        next read registered =>
          obtain ⟨typed, rfl⟩ := console _ _ registered
          cases read'
          have short := length_consoleread_le typed n.toNat
          rwa [BitVec.ofNat_toNat, BitVec.setWidth_eq] at short
    next => cases done

/-- **What makes a `sys_read` overrun its buffer**: the count is negative, and the bytes from the
offset to the end of the file do not fit. -/
def Overruns (y : System) (m : Memory) (p : Fin NPROC) : Prop :=
  ∃ f n addr, y.bufferArgs m p = some (f, n, addr) ∧ y.FromDisk f ∧ n.toInt < 0 ∧
    (y.proc p).sz.toNat < addr.toNat +
      readCount (y.kernel.loaded (y.ftable f).ip).din.size.toNat (y.ftable f).off.toNat n.toNat

theorem bufferArgs_eq_some (fetched : y.bufferArgs m p = some (f, n, addr)) :
    addr < (y.proc p).sz ∧ addr + n ≤ (y.proc p).sz := by
  unfold bufferArgs at fetched
  obtain ⟨⟨_, f'⟩, _, fetched⟩ := Option.bind_eq_some_iff.mp fetched
  obtain ⟨n', _, fetched⟩ := Option.bind_eq_some_iff.mp fetched
  obtain ⟨addr', checked, fetched⟩ := Option.bind_eq_some_iff.mp fetched
  cases fetched
  exact argptr_eq_some checked

theorem toInt_of_not_neg {n : BitVec 32} (count : ¬ n.toInt < 0) : n.toInt = n.toNat := by
  have bound := n.isLt
  rw [BitVec.toInt_eq_toNat_cond] at count ⊢
  split at count
  next small => rw [if_pos small]
  next => omega

theorem sum_le {sz addr n : BitVec 32} (small : sz.toNat ≤ KERNBASE) (start : addr < sz)
    (stop : addr + n ≤ sz) (count : ¬ n.toInt < 0) : addr.toNat + n.toNat ≤ sz.toNat := by
  have size : KERNBASE = 2 ^ 31 := rfl
  have same := toInt_of_not_neg count
  have half := @BitVec.toInt_lt 32 n
  have : n.toNat < 2 ^ 31 := by omega
  bv_omega

theorem sysRead_inside_iff (small : (y.proc p).sz.toNat ≤ KERNBASE) (console : y.ConsoleOnly)
    (done : y.sysRead m p wakes = .ok (r, stores, y')) :
    Stores.Inside (y.proc p).sz stores ↔ ¬ y.Overruns m p := by
  have size : KERNBASE = 2 ^ 31 := rfl
  unfold sysRead at done
  split at done
  next none' =>
    cases done
    refine iff_of_true (fun w absurdity => nomatch absurdity) ?_
    rintro ⟨f, n, addr, fetched, _⟩
    rw [none'] at fetched
    cases fetched
  next f n addr fetched =>
    obtain ⟨⟨r', bytes, y₁⟩, read, done⟩ := bind_eq_ok.mp done
    cases done
    obtain ⟨start, stop⟩ := bufferArgs_eq_some fetched
    rw [inside_storesAt_iff start]
    have args : y.Overruns m p ↔ y.FromDisk f ∧ n.toInt < 0 ∧ (y.proc p).sz.toNat < addr.toNat +
        readCount (y.kernel.loaded (y.ftable f).ip).din.size.toNat (y.ftable f).off.toNat
        n.toNat := by
      constructor
      · rintro ⟨f', n', addr', fetched', overrun⟩
        rw [fetched] at fetched'
        cases fetched'
        exact overrun
      · intro overrun
        exact ⟨f, n, addr, fetched, overrun⟩
    rw [args]
    by_cases disk : y.FromDisk f
    · rw [length_fileread_disk disk read]
      by_cases negative : n.toInt < 0
      · rw [and_iff_right disk, and_iff_right negative, not_lt]
      · refine iff_of_true ?_ fun overrun => negative overrun.2.1
        have count : readCount (y.kernel.loaded (y.ftable f).ip).din.size.toNat
            (y.ftable f).off.toNat n.toNat ≤ n.toNat := by
          unfold readCount
          split <;> omega
        have fits := sum_le small start stop negative
        omega
    · refine iff_of_true ?_ fun overrun => disk overrun.1
      have count := length_fileread_le console disk read
      by_cases negative : n.toInt < 0
      · have start' := BitVec.lt_def.mp start
        omega
      · have fits := sum_le small start stop negative
        have same := toInt_of_not_neg negative
        omega

theorem inside_of_argptr {sz esp i st size : BitVec 32} (small : sz.toNat ≤ KERNBASE)
    (checked : argptr m sz esp i size = some st) (room : size.toNat < 2 ^ 31) :
    st.toNat + size.toNat ≤ sz.toNat := by
  obtain ⟨start, stop⟩ := argptr_eq_some checked
  have same : KERNBASE = 2 ^ 31 := rfl
  bv_omega

theorem inside_field {sz st : BitVec 32} {bytes : List UInt8} (off : BitVec 32)
    (fits : st.toNat + off.toNat + bytes.length ≤ sz.toNat) :
    Stores.Inside sz (storesAt (st + off) bytes) := by
  have bound := sz.isLt
  refine inside_storesAt ?_
  rw [BitVec.toNat_add, Nat.mod_eq_of_lt (by omega)]
  exact fits

theorem inside_stati {sz st : BitVec 32} (ip : Inode) (fits : st.toNat + 20 ≤ sz.toNat) :
    Stores.Inside sz (stati ip st) := by
  have dev : st.toNat + 4 + 4 ≤ sz.toNat := by omega
  have ino : st.toNat + 8 + 4 ≤ sz.toNat := by omega
  have type : st.toNat + 2 ≤ sz.toNat := by omega
  have nlink : st.toNat + 12 + 2 ≤ sz.toNat := by omega
  exact .append (.append (.append (.append (inside_field 4 dev) (inside_field 8 ino))
    (inside_storesAt type)) (inside_field 12 nlink)) (inside_field 16 fits)

theorem sysFstat_inside (small : (y.proc p).sz.toNat ≤ KERNBASE)
    (done : y.sysFstat m p = .ok (r, stores, y')) : Stores.Inside (y.proc p).sz stores := by
  unfold sysFstat at done
  split at done
  · cases done
    exact fun w absurdity => nomatch absurdity
  · split at done
    · cases done
      exact fun w absurdity => nomatch absurdity
    next st checked =>
      have fits := inside_of_argptr small checked (by decide)
      unfold filestat at done
      dsimp only at done
      split at done
      · obtain ⟨k₁, _, done⟩ := bind_eq_ok.mp done
        obtain ⟨k₂, _, done⟩ := bind_eq_ok.mp done
        cases done
        exact inside_stati _ fits
      · cases done
        exact fun w absurdity => nomatch absurdity

theorem sysPipe_inside (small : (y.proc p).sz.toNat ≤ KERNBASE) {page : Option Nat}
    (done : y.sysPipe m p page = .ok (r, stores, y')) : Stores.Inside (y.proc p).sz stores := by
  unfold sysPipe at done
  split at done
  · cases done
    exact fun w absurdity => nomatch absurdity
  next fd checked =>
    have fits : fd.toNat + 8 ≤ (y.proc p).sz.toNat := inside_of_argptr small checked (by decide)
    obtain ⟨⟨files, y₁⟩, _, done⟩ := bind_eq_ok.mp done
    dsimp only at done
    split at done
    · cases done
      exact fun w absurdity => nomatch absurdity
    · unfold pipeFds at done
      split at done
      · obtain ⟨y₂, _, done⟩ := bind_eq_ok.mp done
        obtain ⟨y₃, _, done⟩ := bind_eq_ok.mp done
        cases done
        exact fun w absurdity => nomatch absurdity
      · split at done
        · obtain ⟨y₂, _, done⟩ := bind_eq_ok.mp done
          obtain ⟨y₃, _, done⟩ := bind_eq_ok.mp done
          cases done
          exact fun w absurdity => nomatch absurdity
        · cases done
          have first : fd.toNat + 4 ≤ (y.proc p).sz.toNat := by omega
          exact .append (inside_storesAt first) (inside_field 4 fits)

theorem bufferArgs_congr (small : (y.proc p).sz.toNat ≤ KERNBASE)
    (agree : AgreeBelow (y.proc p).sz m m') : y.bufferArgs m p = y.bufferArgs m' p := by
  unfold bufferArgs argfd
  rw [argint_congr agree small, argint_congr agree small]
  simp only [argptr_congr agree small]

theorem filewrite_congr {src src' : Nat → UInt8} (same : ∀ i < n.toInt.toNat, src i = src' i) :
    y.filewrite p wakes f src n = y.filewrite p wakes f src' n := by
  unfold filewrite
  simp only [Pipe.write_congr same]
  rw [Kernel.filewrite_congr same]
  intro id
  rw [Pipe.write_congr same]

theorem sysWrite_congr (small : (y.proc p).sz.toNat ≤ KERNBASE)
    (agree : AgreeBelow (y.proc p).sz m m') : y.sysWrite m p wakes = y.sysWrite m' p wakes := by
  unfold sysWrite
  rw [bufferArgs_congr small agree]
  split
  · rfl
  next f n addr fetched =>
    obtain ⟨start, stop⟩ := bufferArgs_eq_some fetched
    refine filewrite_congr fun i below => ?_
    have count : ¬ n.toInt < 0 := by omega
    have fits := sum_le small start stop count
    have total := toInt_of_not_neg count
    have bound := (y.proc p).sz.isLt
    rw [agree]
    rw [BitVec.lt_def, BitVec.toNat_add, BitVec.toNat_ofNat,
      Nat.mod_eq_of_lt (show i < 2 ^ 32 by omega), Nat.mod_eq_of_lt (by omega)]
    omega

end System

/-- **When the buffers of system calls stay inside the process.** For every process of a size up to
`KERNBASE`, every stack pointer and every argument: the bytes that a completed `sys_read` stores lie
in `[0, sz)` exactly when it does not overrun its buffer with a negative count; those that
`sys_fstat` and `sys_pipe` store always do; and `sys_write` depends on no byte outside. -/
theorem buffers_inside {y : System} {m : Memory} {p : Fin NPROC} {wakes : List (Bool × Pipe)}
    {page : Option Nat} (small : (y.proc p).sz.toNat ≤ KERNBASE) (console : y.ConsoleOnly) :
    (∀ r stores y', y.sysRead m p wakes = .ok (r, stores, y') →
        (Stores.Inside (y.proc p).sz stores ↔ ¬ y.Overruns m p)) ∧
      (∀ r stores y', y.sysFstat m p = .ok (r, stores, y') → Stores.Inside (y.proc p).sz stores) ∧
      (∀ r stores y', y.sysPipe m p page = .ok (r, stores, y') →
        Stores.Inside (y.proc p).sz stores) ∧
      ∀ m', AgreeBelow (y.proc p).sz m m' → y.sysWrite m p wakes = y.sysWrite m' p wakes :=
  ⟨fun _ _ _ done => System.sysRead_inside_iff small console done,
    fun _ _ _ done => System.sysFstat_inside small done,
    fun _ _ _ done => System.sysPipe_inside small done,
    fun _ agree => System.sysWrite_congr small agree⟩

/-! ### A negative count -/

/-- A process of three pages, with the root directory of a disk open as descriptor 3. -/
def readingRoot : System where
  kernel := Kernel.full.setInode rootSlot ⟨ROOTDEV, 1, 1, false, false, .zero⟩
  ftable _ := ⟨.inode, 1, true, false, 0, rootSlot, 0⟩
  pipes _ := ⟨fun _ => 0, 0, 0, false, false⟩
  proc _ :=
    ⟨0x3000, 0x2f00, false, none, fun fd => if fd.val = 3 then some ⟨0, by decide⟩ else none⟩

/-- Its memory, with the arguments of `read(3, 0x2fff, n)` on the stack. -/
def readArgs (n : BitVec 32) : Memory :=
  ((Memory.write (fun _ => 0) 0x2f04 3).write 0x2f08 0x2fff).write 0x2f0c n

/-- The result of the call, with the last address stored to. -/
def readLast (n : BitVec 32) : Option (Int × Option (BitVec 32)) :=
  match readingRoot.sysRead (readArgs n) ⟨0, NPROC_pos⟩ [] with
  | .error _ => none
  | .ok (r, stores, _) => some (r, stores.getLast?.map (·.1))

set_option maxRecDepth 100000 in
theorem buffers_inside_one_byte : ∃ r stores y',
    readingRoot.sysRead (readArgs 1) ⟨0, by decide⟩ [] = .ok (r, stores, y') ∧
      Stores.Inside 0x3000 stores := by
  have small : (readingRoot.proc ⟨0, by decide⟩).sz.toNat ≤ KERNBASE := by decide
  have console : readingRoot.ConsoleOnly := fun major read absurdity => nomatch absurdity
  have last : (readLast 1).isSome = true := by decide +kernel
  have args :
      readingRoot.bufferArgs (readArgs 1) ⟨0, by decide⟩ = some (⟨0, by decide⟩, 1, 0x2fff) := by
    decide +kernel
  unfold readLast at last
  split at last
  · cases last
  next r stores y' done =>
    have inside :=
      (@buffers_inside readingRoot (readArgs 1) _ [] none small console).1 r stores y' done
    refine ⟨r, stores, y', done, inside.mpr ?_⟩
    rintro ⟨f, n, addr, fetched, _, negative, _⟩
    rw [args] at fetched
    cases fetched
    exact absurd negative (by decide)

set_option maxRecDepth 100000 in
/-- **`read(fd, p, -1)`** of a directory of 48 bytes stores them all, from the last byte of the
process on. -/
theorem negative_count_overruns : readLast (-1) = some (48, some 0x302e) ∧
    ∃ r stores y', readingRoot.sysRead (readArgs (-1)) ⟨0, by decide⟩ [] = .ok (r, stores, y') ∧
      ¬ Stores.Inside 0x3000 stores := by
  have last : readLast (-1) = some (48, some 0x302e) := by decide +kernel
  refine ⟨last, ?_⟩
  unfold readLast at last
  split at last
  · cases last
  next r stores y' done =>
    refine ⟨r, stores, y', done, fun inside => ?_⟩
    simp only [Option.some.injEq, Prod.mk.injEq, Option.map_eq_some_iff] at last
    obtain ⟨_, w, end', address⟩ := last
    have below := inside w (List.mem_of_getLast? end')
    rw [address] at below
    exact absurd below (by decide)

end Xv6
