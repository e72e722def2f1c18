/-
**Where `balloc` finds blocks on an image of `mkfs`.**

`mkfs` marks the blocks it used, and `balloc` scans up to `sb.size`; nobody marks the log, which
ends the disk. `Pool` is the file system with the blocks handed out so far, `Pool.step` one `balloc`
or `bfree` in a transaction of its own. All blocks handed out lie before the log exactly when each
`balloc` was called with a free block left there.
-/

import Xv6.Fs.Transaction
import Xv6.Mkfs.Boot

namespace Xv6.Mkfs

open Lib Function

/-- A call of the allocator. -/
inductive BlockOp where
  | alloc
  | free (b : Nat)

/-- The file system and the blocks that `balloc` returned. -/
structure Pool where
  fs : Fs
  given : List Nat

namespace Pool

/-- One call in a transaction of its own. Only a block that `balloc` returned is freed; a caller
that would sleep in `begin_op` has not called yet. -/
def step (pool : Pool) : BlockOp → Except Panic Pool
  | .alloc =>
    match pool.fs.beginOp with
    | none => .ok pool
    | some s => do
      let (b, s) ← s.balloc
      let s ← s.endOp
      return ⟨s, pool.given ++ [b]⟩
  | .free b =>
    if b ∈ pool.given then
      match pool.fs.beginOp with
      | none => .ok pool
      | some s => do
        let s ← s.bfree b
        let s ← s.endOp
        return ⟨s, pool.given⟩
    else .ok pool

/-- The kernel after boot. -/
def boot (s : Fs) : Pool := ⟨s, []⟩

/-- Between calls the file system is quiet, its super block is that of `mkfs`, the blocks before the
data area are marked, and the blocks handed out lie behind them. -/
structure Inv (pool : Pool) : Prop where
  quiet : pool.fs.Quiet
  capacity : pool.fs.log.capacity = 29
  start : pool.fs.log.start = Mkfs.sb.logStart
  sb : pool.fs.view.sb = Mkfs.sb
  metaUsed : pool.fs.view.MetaUsed
  given : ∀ b ∈ pool.given, metablocks ≤ b ∧ b < size

/-- Some block before the log is free. -/
def HasRoom (pool : Pool) : Prop := ∃ b ∈ pool.fs.view.free, b < sb.logStart

/-- A block of the data area. -/
def InData (b : Nat) : Prop := sb.dataStart ≤ b ∧ b < sb.logStart

theorem free_head_le {v : View} {b : Nat} {rest : List Nat} (first : v.free = b :: rest) {x : Nat}
    (free : x ∈ v.free) : b ≤ x := by
  have sorted : v.free.Pairwise (· < ·) := List.pairwise_lt_range.filter _
  rw [first, List.pairwise_cons] at sorted
  rw [first, List.mem_cons] at free
  rcases free with rfl | later
  · exact le_rfl
  · exact (sorted.1 x later).le

theorem exists_sectors (v : View) : ∃ more : Finset Nat, more.card ≤ 2 ∧
    ∀ b rest, v.free = b :: rest → BBLOCK b v.sb.ninodes.toNat ∈ more ∧ b ∈ more := by
  cases first : v.free with
  | nil => exact ⟨∅, by simp, by simp⟩
  | cons b rest =>
    refine ⟨{BBLOCK b v.sb.ninodes.toNat, b}, Finset.card_le_two, ?_⟩
    rintro _ _ ⟨⟩
    simp

section Step

variable {pool pool' : Pool}

theorem Inv.commit (inv : pool.Inv) {m : Fs} {x : Nat} {rest : List Nat}
    (logs : pool.fs.begun.Logs m (x :: rest)) (short : rest.length ≤ 1) (sb : m.view.sb = Mkfs.sb)
    (before : x < Mkfs.sb.logStart) : m.view.Agrees m.committed.view := by
  have sb' : m.readsb = Mkfs.sb := sb
  have word : (UInt32.ofNat x).toNat = x := by
    rw [UInt32.toNat_ofNat', Nat.mod_eq_of_lt]
    exact before.trans (by decide)
  have header := logs.sector
  rw [show pool.fs.begun.log.lh = .empty from inv.quiet.header] at header
  refine Fs.agrees_committed ?_ (by rw [sb']; decide) ?_ ?_
  · rw [logs.start, sb']
    exact inv.start
  · rw [header]
    exact LogHeader.nodup_absorbAll List.nodup_nil
  · rw [header, sb']
    intro y member
    obtain rfl : y = UInt32.ofNat x := by
      match rest, short with
      | [], _ => cases member
      | [b], _ =>
        by_cases same : UInt32.ofNat b = UInt32.ofNat x
        · simp [LogHeader.absorbAll, same] at member
        · simpa [LogHeader.absorbAll, same] using member
    rw [word]
    exact before

/-- **One `balloc`**: the block is the first free one, and it lies before the log if any free one
does. -/
theorem Inv.alloc_meets (inv : pool.Inv) :
    Meets (pool.step .alloc)
      (fun pool' => pool'.Inv ∧ ∃ b rest, pool.fs.view.free = b :: rest ∧
        pool.fs.view.free = b :: pool'.fs.view.free ∧ pool'.given = pool.given ++ [b] ∧
        (InData b ↔ pool.HasRoom))
      (fun panic => panic = .ballocOutOfBlocks ∧ pool.fs.view.free = []) := by
  rw [step, inv.quiet.beginOp_eq]
  obtain ⟨more, few, named⟩ := exists_sectors pool.fs.view
  have room : pool.fs.begun.Room more := inv.quiet.room (by rw [inv.capacity]; omega)
  have used : pool.fs.begun.view.MetaUsed := inv.metaUsed
  refine ((Fs.balloc_meets used more named).mono (fun _ good => good) ?_).bind ?_
  · rintro panic (out | full)
    · exact out
    · exact (full.2 room).elim
  · rintro ⟨b, m⟩ ⟨⟨rest, first⟩, after, logs⟩
    simp only
    rw [inv.quiet.endOp_eq logs]
    have free : b ∈ pool.fs.view.free :=
      (show pool.fs.view.free = b :: rest from first) ▸ List.mem_cons_self
    have low := inv.metaUsed.dataStart_le free
    have high := (View.mem_free.mp free).1
    rw [inv.sb] at low high
    have view : m.view = pool.fs.view.alloc b := after
    have sb : m.view.sb = Mkfs.sb := by
      rw [view]
      exact inv.sb
    have agrees := inv.commit logs le_rfl sb (by
      show BBLOCK b pool.fs.view.sb.ninodes.toNat < _
      have inside : b < pool.fs.view.sb.size.toNat := (View.mem_free.mp free).1
      have := Superblock.BBLOCK_lt_dataStart inside
      rw [inv.sb] at this ⊢
      exact this.trans (by decide))
    refine ⟨⟨Fs.quiet_committed m, ?_, ?_, ?_, ?_, ?_⟩, b, rest, first, ?_, rfl, ?_⟩
    · exact logs.capacity.trans inv.capacity
    · exact logs.start.trans inv.start
    · exact agrees.sb.trans sb
    · intro x below
      show m.committed.view.bit x = true
      have below' : x < pool.fs.view.sb.dataStart := by
        have : x < m.committed.view.sb.dataStart := below
        rwa [agrees.sb, sb, ← inv.sb] at this
      rw [agrees.bit, view]
      show update pool.fs.view.bit b true x = true
      rw [update_apply]
      split
      · rfl
      · exact inv.metaUsed x below'
    · intro x member
      rcases List.mem_append.mp member with old | new
      · exact inv.given x old
      · rw [List.mem_singleton.mp new]
        exact ⟨low, high⟩
    · show pool.fs.view.free = b :: m.committed.view.free
      rw [agrees.free, view]
      exact View.free_alloc first
    · constructor
      · intro inside
        exact ⟨b, free, inside.2⟩
      · rintro ⟨x, free', before⟩
        exact ⟨low, (free_head_le first free').trans_lt before⟩

theorem Inv.free_meets (inv : pool.Inv) (b : Nat) :
    Meets (pool.step (.free b))
      (fun pool' => pool'.Inv ∧ pool'.given = pool.given) fun _ => True := by
  rw [step]
  by_cases given : b ∈ pool.given
  · rw [if_pos given, inv.quiet.beginOp_eq]
    obtain ⟨low, high⟩ := inv.given b given
    have inside : b < pool.fs.begun.view.sb.size.toNat := by
      rw [Fs.view_begun, inv.sb]
      exact high
    refine ((Fs.bfree_meets inside ∅).weaken).bind ?_
    rintro m ⟨_, after, logs⟩
    rw [inv.quiet.endOp_eq logs]
    have view : m.view = pool.fs.view.setBit b false := after
    have sb : m.view.sb = Mkfs.sb := by
      rw [view]
      exact inv.sb
    have agrees := inv.commit logs (Nat.zero_le _) sb (by
      show BBLOCK b pool.fs.view.sb.ninodes.toNat < _
      have := Superblock.BBLOCK_lt_dataStart inside
      rw [Fs.view_begun, inv.sb] at this
      rw [inv.sb]
      exact this.trans (by decide))
    refine ⟨⟨Fs.quiet_committed m, ?_, ?_, ?_, ?_, ?_⟩, rfl⟩
    · exact logs.capacity.trans inv.capacity
    · exact logs.start.trans inv.start
    · exact agrees.sb.trans sb
    · intro x below
      show m.committed.view.bit x = true
      have below' : x < metablocks := by
        have : x < m.committed.view.sb.dataStart := below
        rw [agrees.sb, sb] at this
        exact this
      have apart : x ≠ b := by
        have : metablocks = 29 := rfl
        omega
      rw [agrees.bit, view]
      show update pool.fs.view.bit b false x = true
      rw [update_of_ne apart]
      exact inv.metaUsed x (by rw [inv.sb]; exact below')
    · exact inv.given
  · rw [if_neg given]
    exact ⟨inv, rfl⟩

/-- **A run** from a quiet pool: what it hands out lies before the log exactly when each `balloc`
had a free block there. -/
theorem Inv.run_iff (inv : pool.Inv) {ops : List BlockOp} {last : Pool}
    (run : ops.foldlM step pool = .ok last) :
    (∀ b ∈ last.given, InData b) ↔ (∀ b ∈ pool.given, InData b) ∧
      ∀ before after p, ops = before ++ .alloc :: after → before.foldlM step pool = .ok p →
        p.HasRoom := by
  induction ops generalizing pool with
  | nil =>
    cases run
    simp
  | cons op ops ih =>
    obtain ⟨next, first, rest⟩ := run_cons.mp run
    -- A `balloc` of the run is the first call, or one of the run after it.
    have later : (∀ before after p, op :: ops = before ++ .alloc :: after →
        before.foldlM step pool = .ok p → p.HasRoom) ↔ (op = .alloc → pool.HasRoom) ∧
        ∀ before after p, ops = before ++ .alloc :: after → before.foldlM step next = .ok p →
          p.HasRoom := by
      constructor
      · intro all
        refine ⟨?_, ?_⟩
        · rintro rfl
          exact all [] ops pool rfl rfl
        · intro before after p split done
          exact all (op :: before) after p (by rw [split]; rfl) (run_cons.mpr ⟨next, first, done⟩)
      · rintro ⟨now, then'⟩ before after p split done
        cases before with
        | nil =>
          cases split
          cases done
          exact now rfl
        | cons _ before =>
          cases split
          obtain ⟨m, taken, done⟩ := run_cons.mp done
          cases first.symm.trans taken
          exact then' before after p rfl done
    cases op with
    | alloc =>
      obtain ⟨inv', b, _, _, _, given, inside⟩ := inv.alloc_meets.of_ok first
      rw [ih inv' rest, later, given, ← inside]
      simp only [List.mem_append, List.mem_singleton, true_imp_iff]
      grind
    | free b =>
      obtain ⟨inv', given⟩ := (inv.free_meets b).of_ok first
      rw [ih inv' rest, later, given]
      simp

theorem Inv.allocs (inv : pool.Inv) {n : Nat} (enough : n ≤ pool.fs.view.free.length) :
    ∃ last, (List.replicate n BlockOp.alloc).foldlM step pool = .ok last ∧
      last.given = pool.given ++ pool.fs.view.free.take n := by
  induction n generalizing pool with
  | zero => exact ⟨pool, rfl, by simp⟩
  | succ n ih =>
    have some' : pool.fs.view.free ≠ [] := by
      intro none'
      rw [none'] at enough
      simp at enough
    obtain ⟨next, first, inv', b, rest, _, split, given, _⟩ :=
      (inv.alloc_meets.mono (fun _ good => good) fun _ bad => some' bad.2).exists_ok
    have enough' : n ≤ next.fs.view.free.length := by
      rw [split] at enough
      simpa using enough
    obtain ⟨last, run, all⟩ := ih inv' enough'
    refine ⟨last, run_cons.mpr ⟨next, first, run⟩, ?_⟩
    rw [all, given, split]
    simp

end Step

/-- **After boot** the invariant holds. -/
theorem inv_boot {files : List InputFile} {built img : Img} (holds : Built files built)
    (finished : Finished built img) : (boot img.boot).Inv where
  quiet := ⟨rfl, rfl, rfl⟩
  capacity := rfl
  start := rfl
  sb := finished.readsb holds
  metaUsed := by
    intro b below
    have below' : b < metablocks := by
      have : b < img.boot.readsb.dataStart := below
      rw [finished.readsb holds] at this
      exact this
    exact (finished.bit (below'.trans (by decide))).mpr (below'.trans_le holds.wf.ok.low)
  given := by
    intro b member
    cases member

end Pool

/-- **`balloc` and `bfree` on an image of `mkfs`** whose inodes fit in the table and whose blocks
end before the log, after the kernel ran `initlog` on it. All blocks ever handed out lie behind the
bitmap and before the log exactly when each `balloc` was called while some block before the log was
free. -/
theorem balloc_region_iff {files : List InputFile} (few : files.length + 1 < ninodes)
    (fits : usedBlocks files ≤ size - nlog) {img : Img} (made : mkfs files = .ok img) {s : Fs}
    (booted : img.initlog = some s) {ops : List BlockOp} {last : Pool}
    (run : ops.foldlM Pool.step (Pool.boot s) = .ok last) :
    (∀ b ∈ last.given, sb.dataStart ≤ b ∧ b < sb.logStart) ↔
      ∀ before after p, ops = before ++ .alloc :: after →
        before.foldlM Pool.step (Pool.boot s) = .ok p →
        ∃ b ∈ p.fs.view.free, b < sb.logStart := by
  obtain ⟨built, holds, finished⟩ := (mkfs_meets few).of_ok made
  cases (finished.initlog holds fits).symm.trans booted
  refine ((Pool.inv_boot holds finished).run_iff run).trans ?_
  constructor
  · exact fun both => both.2
  · intro all
    exact ⟨fun b member => (List.not_mem_nil member).elim, all⟩

theorem usedBlocks_one : usedBlocks (List.replicate 1 emptyFile) ≤ size - nlog := by
  rw [usedBlocks_empty]
  decide

/-- The first block handed out on the image with one empty file lies in the data area. -/
theorem balloc_region_first : ∃ img s last, mkfs (List.replicate 1 emptyFile) = .ok img ∧
    img.initlog = some s ∧ [BlockOp.alloc].foldlM Pool.step (Pool.boot s) = .ok last ∧
    last.given = [30] ∧ ∀ b ∈ last.given, sb.dataStart ≤ b ∧ b < sb.logStart := by
  obtain ⟨img, made, built, holds, finished⟩ := mkfs_empty (n := 1) (by decide)
  have booted := finished.initlog holds usedBlocks_one
  have free := free_one holds finished
  have enough : 1 ≤ (Pool.boot img.boot).fs.view.free.length := by
    show 1 ≤ img.boot.view.free.length
    rw [free]
    decide +kernel
  obtain ⟨last, run, given⟩ := (Pool.inv_boot holds finished).allocs enough
  refine ⟨img, _, last, made, booted, run, ?_,
    (balloc_region_iff (by decide) usedBlocks_one made booted run).mpr ?_⟩
  · rw [given]
    show [] ++ img.boot.view.free.take 1 = [30]
    rw [free]
    decide +kernel
  · intro before after p split done
    obtain rfl : before = [] := by
      cases before with
      | nil => rfl
      | cons _ _ => simp at split
    cases done
    refine ⟨30, ?_, by decide⟩
    show 30 ∈ img.boot.view.free
    rw [free]
    decide +kernel

/-- On the image with one empty file, the 965th `balloc` returns block 994, the header of the
log. -/
theorem balloc_takes_log_header : ∃ img s last, mkfs (List.replicate 1 emptyFile) = .ok img ∧
    img.initlog = some s ∧
    (List.replicate 965 BlockOp.alloc).foldlM Pool.step (Pool.boot s) = .ok last ∧
    994 ∈ last.given ∧ sb.logStart = 994 ∧ s.log.start = 994 := by
  obtain ⟨img, made, built, holds, finished⟩ := mkfs_empty (n := 1) (by decide)
  have free := free_one holds finished
  have enough : 965 ≤ (Pool.boot img.boot).fs.view.free.length := by
    show 965 ≤ img.boot.view.free.length
    rw [free]
    decide +kernel
  obtain ⟨last, run, given⟩ := (Pool.inv_boot holds finished).allocs enough
  refine ⟨img, _, last, made, finished.initlog holds usedBlocks_one, run, ?_, by decide, rfl⟩
  rw [given]
  show 994 ∈ [] ++ img.boot.view.free.take 965
  rw [free]
  decide +kernel

end Xv6.Mkfs
