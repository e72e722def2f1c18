/-
**Exact ownership of blocks, over whole runs.**

`View.Accounted` is the bookkeeping that the file system depends on: every used data block has
exactly one owner, every block of an allocated inode is a used data block, and an inode has the
blocks that its size asks for. `FsOp` are the calls that change it, with those that frame them; a
run is any sequence of calls that keep the callers' discipline (`callable`).
-/

import Xv6.Kernel.Dir

namespace Xv6

open Lib

/-! ### The bookkeeping -/

/-- **Every block is accounted for.** -/
structure View.Accounted (v : View) : Prop where
  /-- A used data block is in exactly one slot of one allocated inode. -/
  owner : ∀ b, v.sb.dataStart ≤ b → b < v.sb.logStart → v.bit b = true →
    ∃! place : Nat × Nat, v.Live place.1 ∧ v.slot place.1 place.2 = b
  /-- A block of an allocated inode is a used data block. -/
  used : ∀ i k, v.Live i → v.slot i k ≠ 0 →
    v.sb.dataStart ≤ v.slot i k ∧ v.slot i k < v.sb.logStart ∧ v.bit (v.slot i k) = true
  /-- An inode has the data blocks its size asks for. -/
  blocks : ∀ i k, v.Live i → k < MAXFILE →
    (v.slot i k ≠ 0 ↔ k < blocksOf (v.din i).size.toNat)
  /-- It has an indirect block if these are more than the direct ones. -/
  indirect : ∀ i, v.Live i → (v.slot i MAXFILE ≠ 0 ↔ NDIRECT < blocksOf (v.din i).size.toNat)

/-- A well-formed file system has its blocks accounted for. -/
theorem View.WellFormed.accounted {v : View} (wellFormed : v.WellFormed) (inside : v.Inside) :
    v.Accounted where
  owner b low high bit := by
    have nonzero : b ≠ 0 := by
      have := v.sb.two_le_dataStart
      omega
    obtain ⟨place, owned⟩ := wellFormed.owned.owns.cover ⟨low, high⟩ bit
    obtain ⟨live, _, slot⟩ := own_eq_some.mp owned
    refine ⟨place, ⟨live, slot⟩, fun other holds => ?_⟩
    exact wellFormed.owned.owns.inj (own_eq_some.mpr ⟨holds.1, nonzero, holds.2⟩) owned
  used i k live some' :=
    ⟨(wellFormed.owned.slot_range live some').1, inside.before (own_slot live some'),
      wellFormed.owned.slot_used live some'⟩
  blocks i k live below := by
    rw [(wellFormed.shaped i live).slots k below.le]
    omega
  indirect i live := by
    have shaped := wellFormed.shaped i live
    rw [shaped.slots MAXFILE le_rfl]
    have := shaped.bound
    omega

theorem Fs.Written.drawn {s s' : Fs} {ip ip' : Inode} {off : Nat} {src : List UInt8}
    {taken sectors : List Nat} (locked : Locked s ip) (bound : off + src.length ≤ MAXFILE * BSIZE)
    (written : Written s s' ip ip' off src taken sectors) {b : Nat}
    (drawn : b ∈ s.view.free.take (growth (blocks ip) (blocksAfter ip off src.length))) :
    b ≠ 0 ∧ ∃ k, s'.view.slot ip.inum k = b := by
  refine ⟨locked.wellFormed.owned.free_ne_zero (List.mem_of_mem_take drawn), ?_⟩
  rw [← written.count locked, written.effect.free, List.take_left, ← List.mem_toFinset,
    written.taken_eq locked bound, Finset.mem_image] at drawn
  obtain ⟨k, _, slot⟩ := drawn
  exact ⟨k, slot⟩

/-! ### Runs -/

/-- A call of the file system. -/
inductive FsOp where
  | beginOp
  | endOp
  | iget (inum : Nat)
  | idup (ip : Slot)
  | ilock (ip : Slot)
  | iunlock (ip : Slot)
  | ialloc (type : Int16)
  | writei (ip : Slot) (src : List UInt8) (off : Nat)
  | dirlink (dp : Slot) (name : List UInt8) (inum : Nat)
  | iupdate (ip : Slot) (nlink major minor : Int16)
  | iput (ip : Slot)

namespace Kernel

/-- A process holds the lock of the inode. -/
def Held (k : Kernel) (ip : Slot) : Prop := 0 < (k.icache ip).ref ∧ (k.icache ip).busy = true

instance (k : Kernel) (ip : Slot) : Decidable (k.Held ip) := inferInstanceAs (Decidable (_ ∧ _))

/-- The callers' discipline: references are counted, inodes are locked before they are used, and
arguments are of the types of the source. -/
def callable (k : Kernel) : FsOp → Bool
  | .iget inum => decide (inum < k.fs.readsb.ninodes.toNat)
  | .ilock ip => decide ((k.icache ip).inum < k.fs.readsb.ninodes.toNat)
  | .idup ip | .iput ip => decide (0 < (k.icache ip).ref)
  | .writei ip src off => decide (k.Held ip ∧ off < 2 ^ 32 ∧ src.length < 2 ^ 32)
  | .dirlink ip _ _ | .iupdate ip _ _ _ => decide (k.Held ip)
  | _ => true

/-- The call. -/
def perform (k : Kernel) : FsOp → Except Halt Kernel
  | .beginOp => k.beginOp
  | .endOp => k.endOp
  | .iget inum => do
    let (_, k) ← k.iget ROOTDEV inum
    return k
  | .idup ip => .ok (k.idup ip)
  | .ilock ip => k.ilock ip
  | .iunlock ip => k.iunlock ip
  | .ialloc type => do
    let (_, k) ← k.ialloc ROOTDEV type
    return k
  | .writei ip src off => do
    let (_, k) ← k.writei ip src off
    return k
  | .dirlink dp name inum => do
    let (_, k) ← k.dirlink dp name inum
    return k
  | .iupdate ip nlink major minor => k.iupdate ip { (k.icache ip).din with nlink, major, minor }
  | .iput ip => k.iput ip

/-- One step of a run. A call that sleeps has not been made yet. -/
def step (k : Kernel) (op : FsOp) : Except Panic Kernel :=
  if k.callable op then
    match k.perform op with
    | .ok k' => .ok k'
    | .error .sleep => .ok k
    | .error (.panic why) => .error why
  else .ok k

/-- **The blocks that the call takes lie before the log**: the first blocks of the free list, as
many as the file has to grow by. -/
def HasRoom (k : Kernel) : FsOp → Prop
  | .writei ip src off => k.callable (.writei ip src off) → Fs.Fits (k.icache ip) off src.length →
    ∀ b ∈ k.fs.view.free.take
      (growth (Fs.blocks (k.icache ip)) (Fs.blocksAfter (k.icache ip) off src.length)),
      b < k.fs.view.sb.logStart
  | .dirlink dp name inum => k.callable (.dirlink dp name inum) →
    k.fs.view.findEntry (k.icache dp).inum 0 (matchesName name) = none →
    ∀ b ∈ k.fs.view.free.take (growth (Fs.blocks (k.icache dp)) (Fs.blocksAfter (k.icache dp)
      (DIRENTSIZE * k.fs.view.emptyEntry (k.icache dp).inum) DIRENTSIZE)),
      b < k.fs.view.sb.logStart
  | _ => True

/-- Between calls the cache agrees with the disk, and the files and the log are apart. -/
structure Sound (k : Kernel) : Prop where
  coherent : k.Coherent
  apart : k.fs.Apart

section Steps

variable {k k' : Kernel} {ip : Slot}

theorem Sound.accounted (sound : k.Sound) : k.fs.view.Accounted :=
  sound.coherent.wellFormed.accounted sound.apart.inside

theorem Sound.same (sound : k.Sound) (coherent : k'.Coherent) (fs : k'.fs = k.fs) : k'.Sound :=
  ⟨coherent, fs ▸ sound.apart⟩

theorem Sound.moves (sound : k.Sound) (coherent : k'.Coherent) (moves : k.fs.Moves k'.fs 0) :
    k'.Sound :=
  ⟨coherent, sound.apart.moves moves fun _ absurdity => (List.not_mem_nil absurdity).elim⟩

/-- What the step lemma says of one call. -/
def Exact (k : Kernel) (op : FsOp) (k' : Kernel) : Prop :=
  (k.HasRoom op → k'.Sound) ∧ (¬ k.HasRoom op → ¬ k'.fs.view.Accounted)

theorem Exact.of_sound {op : FsOp} (room : k.HasRoom op) (sound : k'.Sound) : Exact k op k' :=
  ⟨fun _ => sound, fun absurdity => absurd room absurdity⟩

theorem Sound.written (sound : k.Sound) (coherent : k'.Coherent) {off : Nat} {src : List UInt8}
    {taken sectors : List Nat} (used : 0 < (k.icache ip).ref) (valid : (k.icache ip).valid = true)
    (fits : Fs.Fits (k.icache ip) off src.length)
    (written : Fs.Written k.fs k'.fs (k.icache ip) (k'.icache ip) off src taken sectors) :
    ((∀ b ∈ k.fs.view.free.take
      (growth (Fs.blocks (k.icache ip)) (Fs.blocksAfter (k.icache ip) off src.length)),
      b < k.fs.view.sb.logStart) → k'.Sound) ∧
    (k'.fs.view.Accounted → ∀ b ∈ k.fs.view.free.take
      (growth (Fs.blocks (k.icache ip)) (Fs.blocksAfter (k.icache ip) off src.length)),
      b < k.fs.view.sb.logStart) := by
  have locked := sound.coherent.synced ip used valid
  refine ⟨fun low => ⟨coherent, sound.apart.moves (written.moves locked fits.2.1 fits.2.2) low⟩, ?_⟩
  intro accounted b drawn
  obtain ⟨nonzero, l, rfl⟩ := written.drawn locked fits.2.2 drawn
  have sb : k'.fs.view.sb = k.fs.view.sb := written.effect.sb
  rw [← sb]
  exact (accounted.used _ l written.live nonzero).2.1

/-- `writei` keeps the bookkeeping exactly if its blocks lie before the log. -/
theorem Sound.writei_exact (sound : k.Sound) {src : List UInt8} {off : Nat}
    (allowed : k.callable (.writei ip src off) = true) :
    Meets (k.perform (.writei ip src off)) (Exact k (.writei ip src off)) Safe := by
  obtain ⟨⟨used, busy⟩, word⟩ : k.Held ip ∧ off < 2 ^ 32 ∧ src.length < 2 ^ 32 := by
    simpa [callable] using allowed
  have valid := sound.coherent.locked ip used busy
  refine (sound.coherent.writei_meets used valid src off word).bind ?_
  rintro ⟨r, k'⟩ ⟨stored, rejected, accepted⟩
  by_cases fits : Fs.Fits (k.icache ip) off src.length
  · obtain ⟨_, taken, sectors, written⟩ := accepted fits
    obtain ⟨keeps, needs⟩ := sound.written stored.coherent used valid fits written
    exact ⟨fun room => keeps (room allowed fits), fun none' accounted =>
      none' fun _ _ => needs accounted⟩
  · obtain ⟨rfl, _⟩ := rejected fits
    exact .of_sound (fun _ absurdity => absurd absurdity fits) sound

theorem Sound.dirlink_exact (sound : k.Sound) {name : List UInt8} {inum : Nat}
    (allowed : k.callable (.dirlink ip name inum) = true) :
    Meets (k.perform (.dirlink ip name inum)) (Exact k (.dirlink ip name inum)) Safe := by
  obtain ⟨used, busy⟩ : k.Held ip := by simpa [callable] using allowed
  have valid := sound.coherent.locked ip used busy
  by_cases dir : (k.icache ip).din.type = T_DIR
  · refine (sound.coherent.dirlink_meets ⟨used, valid, dir⟩ name inum).bind ?_
    rintro ⟨r, k'⟩ (⟨_, same, known⟩ | ⟨_, stored, absent, _, fits, taken, sectors, written⟩)
    · refine .of_sound (fun _ absent => ?_) (sound.same same.coherent same.fs)
      rw [absent] at known
      cases known
    · have length : (Dirent.encode ⟨UInt16.ofNat inum, strncpy name DIRSIZ⟩).length = DIRENTSIZE :=
        Dirent.length_encode (length_strncpy _ _)
      have fits' : Fs.Fits (k.icache ip) (DIRENTSIZE * k.fs.view.emptyEntry (k.icache ip).inum)
          (Dirent.encode ⟨UInt16.ofNat inum, strncpy name DIRSIZ⟩).length := length ▸ fits
      obtain ⟨keeps, needs⟩ := sound.written stored.coherent used valid fits' written
      rw [length] at keeps needs
      exact ⟨fun room => keeps (room allowed absent), fun none' accounted =>
        none' fun _ _ => needs accounted⟩
  · have panics : k.perform (.dirlink ip name inum) = .error (.panic .dirlookupNotDir) := by
      rw [perform, dirlink, dirlookup, if_pos dir]
      rfl
    rw [panics]
    intro absurdity
    cases absurdity

theorem Sound.perform_exact (sound : k.Sound) {op : FsOp} (allowed : k.callable op = true) :
    Meets (k.perform op) (Exact k op) fun halt => halt = .sleep ∧ k.HasRoom op ∨ Safe halt := by
  have coherent := sound.coherent
  cases op with
  | beginOp =>
    refine (coherent.beginOp_meets sound.apart).mono ?_ fun _ sleeps => .inl ⟨sleeps, trivial⟩
    rintro k' ⟨coherent', apart', _⟩
    exact .of_sound trivial ⟨coherent', apart'⟩
  | endOp =>
    refine (coherent.endOp_meets sound.apart).mono ?_ fun _ safe => .inr safe
    rintro k' ⟨coherent', apart', _⟩
    exact .of_sound trivial ⟨coherent', apart'⟩
  | iget inum =>
    refine ((coherent.iget_meets inum).mono (fun _ good => good) fun _ safe => .inr safe).bind ?_
    rintro ⟨ip, k'⟩ got
    exact .of_sound trivial (sound.same got.coherent got.fs)
  | idup ip =>
    have used : 0 < (k.icache ip).ref := by simpa [callable] using allowed
    exact .of_sound trivial (sound.same (coherent.idup used).coherent rfl)
  | ilock ip =>
    have inside : (k.icache ip).inum < k.fs.readsb.ninodes.toNat := by
      simpa [callable] using allowed
    refine (coherent.ilock_meets inside).mono ?_ fun _ bad => bad.imp_left fun sleeps =>
      ⟨sleeps, trivial⟩
    rintro k' ⟨flagged, _⟩
    exact .of_sound trivial (sound.same flagged.coherent flagged.fs)
  | iunlock ip =>
    refine (coherent.iunlock_meets ip).mono ?_ fun _ safe => .inr safe
    intro k' flagged
    exact .of_sound trivial (sound.same flagged.coherent flagged.fs)
  | ialloc type =>
    refine ((coherent.ialloc_meets type).mono (fun _ good => good) fun _ safe => .inr safe).bind ?_
    rintro ⟨ip, k'⟩ ⟨inum, m, _, _, _, got, _, coherent', _, moves⟩
    exact .of_sound trivial ((sound.moves coherent' moves).same got.coherent got.fs)
  | writei ip src off =>
    exact (sound.writei_exact allowed).mono (fun _ good => good) fun _ safe => .inr safe
  | dirlink ip name inum =>
    exact (sound.dirlink_exact allowed).mono (fun _ good => good) fun _ safe => .inr safe
  | iupdate ip nlink major minor =>
    obtain ⟨used, busy⟩ : k.Held ip := by simpa [callable] using allowed
    refine (coherent.iupdate_meets used (coherent.locked ip used busy) rfl).mono ?_
      fun _ safe => .inr safe
    rintro k' ⟨stored, _, _, moves⟩
    exact .of_sound trivial (sound.moves stored.coherent moves)
  | iput ip =>
    have used : 0 < (k.icache ip).ref := by simpa [callable] using allowed
    refine (coherent.iput_meets used).mono ?_ fun _ safe => .inr safe
    intro k' dropped
    exact .of_sound trivial (sound.moves dropped.coherent dropped.moves)

/-- **One step**, whichever call it is; none frees a free block. -/
theorem Sound.step_exact (sound : k.Sound) (op : FsOp) :
    Meets (k.step op) (Exact k op) fun why => why ≠ .freeingFreeBlock := by
  unfold step
  by_cases allowed : k.callable op = true
  · rw [if_pos allowed]
    have exact' := sound.perform_exact allowed
    cases result : k.perform op with
    | ok k' => exact exact'.of_ok result
    | error halt =>
      rcases exact'.of_error result with ⟨rfl, room⟩ | safe
      · exact .of_sound room sound
      · cases halt with
        | panic why => exact safe
        | sleep => exact safe.elim
  · rw [if_neg allowed]
    refine .of_sound ?_ sound
    cases op with
    | writei ip src off => exact fun absurdity => absurd absurdity allowed
    | dirlink dp name inum => exact fun absurdity => absurd absurdity allowed
    | _ => trivial

/-- **Block ownership over whole runs.** From a sound state, every block is accounted for in every
state that a run passes through if and only if each of its calls takes blocks before the log; and
then no call of the run panics with `freeing free block`. -/
theorem ownership_iff (coherent : k.Coherent) (apart : k.fs.Apart) (ops : List FsOp) :
    (Always step (fun m => m.fs.view.Accounted) k ops ↔ EachStep step HasRoom k ops) ∧
    (EachStep step HasRoom k ops → ops.foldlM step k ≠ .error .freeingFreeBlock) := by
  have exact' : ∀ (m : Kernel) op t, m.Sound → m.step op = .ok t → Exact m op t :=
    fun m op t sound taken => (sound.step_exact op).of_ok taken
  refine ⟨always_iff_eachStep (fun m sound => Sound.accounted sound) exact' ⟨coherent, apart⟩, ?_⟩
  intro each failed
  obtain ⟨m, op, sound, stopped⟩ :=
    each.fault (fun m op t sound taken => (exact' m op t sound taken).1) ⟨coherent, apart⟩ failed
  exact (sound.step_exact op).of_error stopped rfl

end Steps

/-! ### A full disk -/

/-- A disk of 48 blocks, laid out as `mkfs` does: the root directory in block 5, a file in the
blocks 6 to 17, and the log in the blocks 18 to 47, whose bits are clear. -/
def fullDisk : Nat → Block
  | 1 => (((Block.zero.setWord 0 48).setWord 1 13).setWord 2 8).setWord 3 30
  | 2 =>
    Dinode.store (Dinode.store Block.zero 1
      { Dinode.zero with
      type := T_DIR, nlink := 1, size := 48, addrs := fun l => if l.val = 0 then 5 else 0 }) 2
      { Dinode.zero with
        type := T_FILE, nlink := 1, size := 6144,
        addrs := fun l => if l.val < 12 then UInt32.ofNat (6 + l.val) else 0 }
  | 4 => (List.range 18).foldl Block.setBit Block.zero
  | 5 => Block.zero.write 0 (Dirent.encode ⟨1, strncpy [46] DIRSIZ⟩ ++
    Dirent.encode ⟨1, strncpy [46, 46] DIRSIZ⟩ ++ Dirent.encode ⟨2, strncpy [102] DIRSIZ⟩)
  | _ => Block.zero

/-- The kernel that booted from it. -/
def full : Kernel := .boot ⟨fullDisk, .init 48 30, fun _ => ⟨none, none⟩, []⟩

set_option maxRecDepth 100000 in
theorem full_layout :
    full.fs.view.sb = ⟨48, 13, 8, 30⟩ ∧ (∀ b < 48, full.fs.view.bit b = decide (b < 18)) ∧
    ((∀ i < 8, (full.fs.view.din i).type ≠ 0 ↔ i = 1 ∨ i = 2) ∧
      (full.fs.view.din 1).size = 48 ∧ (full.fs.view.din 2).size = 6144) ∧
    (∀ k < 141, full.fs.view.slot 1 k = (if k = 0 then 5 else 0) ∧
      full.fs.view.slot 2 k = if k < 12 then 6 + k else 0) ∧
    ((full.fs.view.din 1).nlink ≠ 0 ∧ (full.fs.view.din 2).nlink ≠ 0 ∧
    (full.fs.view.din 2).type ≠ T_DIR) ∧ ∀ de ∈ full.fs.view.firstEnts 1,
    de.inum.toNat < 8 := by decide +kernel

theorem full_sb : full.fs.view.sb = ⟨48, 13, 8, 30⟩ := full_layout.1

theorem full_bit : ∀ b < 48, full.fs.view.bit b = decide (b < 18) := full_layout.2.1

theorem full_dins : (∀ i < 8, (full.fs.view.din i).type ≠ 0 ↔ i = 1 ∨ i = 2) ∧
    (full.fs.view.din 1).size = 48 ∧ (full.fs.view.din 2).size = 6144 := full_layout.2.2.1

theorem full_slots : ∀ k < 141, full.fs.view.slot 1 k = (if k = 0 then 5 else 0) ∧
    full.fs.view.slot 2 k = if k < 12 then 6 + k else 0 := full_layout.2.2.2.1

theorem full_live {i : Nat} : full.fs.view.Live i ↔ i = 1 ∨ i = 2 := by
  by_cases inside : i < 8
  · exact full_dins.1 i inside
  · refine iff_of_false (fun alive => alive ?_) (by omega)
    have none' : full.fs.view.din i = Dinode.zero :=
      if_neg (by rw [show full.fs.readsb = _ from full_sb]; exact inside)
    rw [none']
    rfl

theorem full_own {place : Nat × Nat} {b : Nat} : full.fs.view.own place = some b ↔
    place = (1, 0) ∧ b = 5 ∨ place.1 = 2 ∧ place.2 < 12 ∧ b = 6 + place.2 := by
  obtain ⟨i, k⟩ := place
  have slot : ∀ j, j = 1 ∨ j = 2 → full.fs.view.slot j k =
      if j = 1 then (if k = 0 then 5 else 0) else if k < 12 then 6 + k else 0 := by
    intro j either
    by_cases inside : k < 141
    · rcases either with rfl | rfl
      · exact (full_slots k inside).1
      · exact (full_slots k inside).2
    · rw [show full.fs.view.slot j k = 0 from View.slotOf_beyond (by rw [MAXFILE_eq]; omega),
        if_neg (show ¬ k = 0 by omega), if_neg (show ¬ k < 12 by omega), ite_self]
  rw [View.own_eq_some, full_live, Prod.mk.injEq]
  constructor
  · rintro ⟨either, nonzero, held⟩
    rw [slot i either] at held
    split at held
    · split at held <;> omega
    · split at held <;> omega
  · rintro (⟨⟨rfl, rfl⟩, rfl⟩ | ⟨rfl, below, rfl⟩)
    · exact ⟨.inl rfl, by omega, slot 1 (.inl rfl)⟩
    · refine ⟨.inr rfl, by omega, ?_⟩
      rw [slot 2 (.inr rfl), if_neg (by omega), if_pos below]

theorem full_inside : full.fs.view.Inside where
  layout := by
    rw [full_sb]
    decide
  before := by
    rintro ⟨i, k⟩ b owned
    rw [full_sb]
    show b < 18
    rcases full_own.mp owned with ⟨_, rfl⟩ | ⟨_, below, rfl⟩ <;> omega

theorem full_wellFormed : full.fs.view.WellFormed := by
  have dataStart : full.fs.view.sb.dataStart = 5 := by
    rw [full_sb]
    rfl
  have logStart : full.fs.view.sb.logStart = 18 := by
    rw [full_sb]
    rfl
  refine ⟨⟨⟨?_, ?_, ?_⟩, ?_, ?_⟩, ?_, ?_⟩
  · rintro ⟨i, k⟩ b owned
    rcases full_own.mp owned with ⟨_, rfl⟩ | ⟨_, below, rfl⟩
    · rw [full_bit 5 (by omega)]
      rfl
    · have below' : k < 12 := below
      rw [full_bit _ (by omega), decide_eq_true (by omega)]
  · rintro ⟨i, k⟩ ⟨j, l⟩ b first second
    rcases full_own.mp first with ⟨root, five⟩ | ⟨one, below, six⟩ <;>
      rcases full_own.mp second with ⟨root', five'⟩ | ⟨one', below', six'⟩
    · rw [root, root']
    · omega
    · omega
    · simp only at one one' six six'
      rw [Prod.mk.injEq]
      omega
  · rintro b ⟨low, high⟩ bit
    rw [dataStart] at low
    rw [logStart] at high
    by_cases root : b = 5
    · exact ⟨(1, 0), full_own.mpr (.inl ⟨rfl, root⟩)⟩
    · exact ⟨(2, b - 6), full_own.mpr (.inr ⟨rfl, by simp only; omega, by simp only; omega⟩)⟩
  · rintro ⟨i, k⟩ b owned
    rw [dataStart, full_sb]
    show 5 ≤ b ∧ b < 48
    rcases full_own.mp owned with ⟨_, rfl⟩ | ⟨_, below, rfl⟩ <;> omega
  · intro b below
    rw [dataStart] at below
    rw [full_bit b (by omega), decide_eq_true (by omega)]
  · intro i alive
    rcases full_live.mp alive with rfl | rfl
    · rw [full_dins.2.1]
      decide
    · rw [full_dins.2.2]
      decide
  · intro i alive
    rcases full_live.mp alive with rfl | rfl
    · rw [full_dins.2.1]
      refine ⟨by decide, fun k inside => ?_⟩
      rw [MAXFILE_eq] at inside ⊢
      rw [(full_slots k (by omega)).1, NDIRECT_eq]
      show (if k = 0 then 5 else 0) ≠ 0 ↔ k < 1 ∨ k = 140 ∧ 12 < 1
      split <;> omega
    · rw [full_dins.2.2]
      refine ⟨by decide, fun k inside => ?_⟩
      rw [MAXFILE_eq] at inside ⊢
      rw [(full_slots k (by omega)).2, NDIRECT_eq]
      show (if k < 12 then 6 + k else 0) ≠ 0 ↔ k < 12 ∨ k = 140 ∧ 12 < 12
      split <;> omega

theorem full_coherent : full.Coherent := .of_empty full_wellFormed fun _ => rfl

theorem full_apart : full.fs.Apart where
  journaled := ⟨by rw [show full.fs.readsb = _ from full_sb]; rfl, List.nodup_nil,
    fun _ absurdity => (List.not_mem_nil absurdity).elim⟩
  inside := full_inside

set_option maxRecDepth 100000 in
/-- The file of the full disk is removed, and a byte written to a new one. -/
def reuseOps : List FsOp :=
  [.beginOp, .iget 2, .ilock rootSlot, .iupdate rootSlot 0 0 0, .iunlock rootSlot, .iput rootSlot,
    .ialloc T_FILE, .ilock rootSlot, .iupdate rootSlot 1 0 0, .writei rootSlot [1] 0, .endOp]

/-- A check of `HasRoom` for calls that add no entry. -/
def roomy (k : Kernel) : FsOp → Bool
  | .writei ip src off => (k.fs.view.free.take (growth (Fs.blocks (k.icache ip))
      (Fs.blocksAfter (k.icache ip) off src.length))).all (· < k.fs.view.sb.logStart)
  | .dirlink _ _ _ => false
  | _ => true

set_option maxRecDepth 100000 in
/-- **Blocks are freed and taken**: the new file gets the first block of the old one. -/
theorem ownership_reuse : (∃ m, reuseOps.foldlM step full = .ok m ∧ m.fs.view.Live 2 ∧
      m.fs.view.slot 2 0 = 6 ∧ m.fs.view.slot 2 1 = 0) ∧
    Always step (fun m => m.fs.view.Accounted) full reuseOps := by
  obtain ⟨m, run, ends⟩ := exists_of_endsIn (x := reuseOps.foldlM step full) (P := fun m =>
    decide ((m.fs.view.din 2).type ≠ 0 ∧ m.fs.view.slot 2 0 = 6 ∧ m.fs.view.slot 2 1 = 0))
    (by decide +kernel)
  refine ⟨⟨m, run, of_decide_eq_true ends⟩, (ownership_iff full_coherent full_apart _).1.mpr ?_⟩
  refine eachStep_of_check (q := roomy) (fun k op low => ?_) (by decide +kernel)
  cases op with
  | writei ip src off =>
    exact fun _ _ b member => of_decide_eq_true (List.all_eq_true.mp low b member)
  | dirlink dp name inum => cases low
  | _ => trivial

set_option maxRecDepth 100000 in
/-- **A full disk.** The file grows to its thirteenth block: it gets the header of the log as
indirect block, and the commit clears the entry of the new block. The next commit leaves the number
of a logged block of the file there, and removing the file frees that block twice. -/
theorem full_disk_frees_free_block : full.Coherent ∧ full.fs.Apart ∧
    (∃ m, [FsOp.beginOp, .iget 2, .ilock rootSlot, .iupdate rootSlot 0 0 0,
        .writei rootSlot (List.replicate BSIZE 1) (NDIRECT * BSIZE), .endOp].foldlM step full =
        .ok m ∧
      blocksOf (m.fs.view.din 2).size.toNat = 13 ∧ m.fs.view.slot 2 12 = 0) ∧
    [FsOp.beginOp, .iget 2, .ilock rootSlot, .iupdate rootSlot 0 0 0,
      .writei rootSlot (List.replicate BSIZE 1) (NDIRECT * BSIZE), .endOp,
      .beginOp, .writei rootSlot [1] 0, .endOp,
      .beginOp, .iunlock rootSlot, .iput rootSlot].foldlM step full = .error .freeingFreeBlock := by
  have check : endsIn ([FsOp.beginOp, .iget 2, .ilock rootSlot, .iupdate rootSlot 0 0 0,
      .writei rootSlot (List.replicate BSIZE 1) (NDIRECT * BSIZE), .endOp].foldlM step full)
      (fun m =>
        decide (blocksOf (m.fs.view.din 2).size.toNat = 13 ∧ m.fs.view.slot 2 12 = 0) &&
        failsWith ([FsOp.beginOp, .writei rootSlot [1] 0, .endOp, .beginOp, .iunlock rootSlot,
          .iput rootSlot].foldlM step m) .freeingFreeBlock) = true := by decide +kernel
  obtain ⟨m, grown, ends⟩ := exists_of_endsIn check
  obtain ⟨hole, fails⟩ := (Bool.and_eq_true _ _).mp ends
  exact ⟨full_coherent, full_apart, ⟨m, grown, of_decide_eq_true hole⟩,
    run_append_error grown (eq_error_of_failsWith fails)⟩

end Kernel

end Xv6
