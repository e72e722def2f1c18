/-
**The chunks of `filewrite`.**

A call that runs alone (`Alone`) takes one transaction for each chunk, and behind each the next one
runs alone again. The chunks lie side by side, so together they are one write of all their bytes:
`filewrite_chunks`. A chunk that would pass the maximum size is rejected, but those before it are
committed.
-/

import Xv6.Fs.Array
import Xv6.Kernel.Data
import Xv6.Kernel.Filewrite

namespace Xv6

open Lib

/-! ### The log has room for a chunk -/

/-- The first `n` of a sorted list lie below `top` if so many of its elements do. -/
theorem take_lt_of_filter {l : List Nat} {n top : Nat} (sorted : l.Pairwise (· < ·))
    (enough : n ≤ (l.filter (· < top)).length) : n ≤ l.length ∧ ∀ b ∈ l.take n, b < top := by
  induction l generalizing n with
  | nil => exact ⟨enough, by simp⟩
  | cons x l ih =>
    obtain ⟨least, rest⟩ := List.pairwise_cons.mp sorted
    by_cases low : x < top
    · cases n with
      | zero => simp
      | succ n =>
        rw [List.filter_cons_of_pos (by simpa using low)] at enough
        obtain ⟨fits, lows⟩ := ih rest (Nat.le_of_succ_le_succ enough)
        exact ⟨Nat.succ_le_succ fits, List.forall_mem_cons.mpr ⟨low, lows⟩⟩
    · have none' : (x :: l).filter (· < top) = [] := by
        refine List.filter_eq_nil_iff.mpr fun b member => ?_
        rcases List.mem_cons.mp member with rfl | later
        · simpa using low
        · have := least b later
          simp only [decide_eq_true_eq]
          omega
      rw [none'] at enough
      obtain rfl := Nat.le_zero.mp enough
      simp

namespace Fs

/-- The number of bitmap blocks of the disk. -/
def bitmapBlocks (s : Fs) : Nat := s.readsb.size.toNat / BPB + 1

/-- A chunk fits a log that has room for the bitmap and 17 more sectors. -/
theorem card_writeSectors_chunk (s : Fs) (ip : Inode) {off n : Nat}
    (inside : off ≤ ip.din.size.toNat) (small : n ≤ Kernel.maxWrite) :
    (s.writeSectors ip off n).card ≤ s.bitmapBlocks + 17 := by
  have value : Kernel.maxWrite = 6656 := rfl
  have old : ∀ last ≤ blocksOf (off + n),
      (((Finset.range (blocks ip)).filter fun k => off / BSIZE ≤ k ∧ k < last).image
        (s.view.slot ip.inum)).card ≤ min (blocks ip) (blocksOf (off + n)) - off / BSIZE := by
    intro last early
    refine Finset.card_image_le.trans ?_
    rw [← Nat.card_Ico]
    refine Finset.card_le_card fun k member => ?_
    rw [Finset.mem_filter, Finset.mem_range] at member
    rw [Finset.mem_Ico]
    omega
  have maps : ((s.view.free.take (growth (blocks ip) (blocksAfter ip off n))).map fun b =>
      BBLOCK b s.readsb.ninodes.toNat).toFinset.card ≤ s.bitmapBlocks := by
    have range : s.bitmapBlocks = (Finset.Ico (s.readsb.ninodes.toNat / IPB + 3)
        (s.readsb.ninodes.toNat / IPB + 3 + s.bitmapBlocks)).card := by
      rw [Nat.card_Ico, Nat.add_sub_cancel_left]
    rw [range]
    refine Finset.card_le_card fun x member => ?_
    obtain ⟨b, taken, rfl⟩ := List.mem_map.mp (List.mem_toFinset.mp member)
    have free : b < s.readsb.size.toNat := (View.mem_free.mp (List.mem_of_mem_take taken)).1
    have := Nat.div_le_div_right (c := BPB) free.le
    simp only [Finset.mem_Ico, BBLOCK, bitmapBlocks, IPB_eq, BPB_eq] at this ⊢
    omega
  have spanned : min (blocks ip) (blocksOf (off + n)) - off / BSIZE +
      growth (blocks ip) (blocksAfter ip off n) ≤ 15 := by
    have covered := size_le_blocks ip
    unfold growth blocksAfter
    unfold blocksOf at *
    rw [BSIZE_eq] at *
    split_ifs <;> omega
  have bound := s.card_writeSectors ip off n old maps
  omega

end Fs

namespace Kernel

/-! ### One chunk -/

/-- **The call runs alone** on the open regular file `f`: no operation is under way, and nobody has
the inode locked. -/
structure Alone (k : Kernel) (f : File) : Prop where
  quiet : k.fs.Quiet
  apart : k.fs.Apart
  used : 0 < (k.icache f.ip).ref
  unlocked : (k.icache f.ip).busy = false
  locked : k.fs.Locked (k.loaded f.ip)
  file : (k.loaded f.ip).din.type = T_FILE

/-- The inode as the call holds it. -/
def held (k : Kernel) (f : File) : Inode := { k.loaded f.ip with busy := true, valid := true }

/-- The kernel behind a transaction that left the inode `node` and the file system `fs`. -/
def closed (k : Kernel) (f : File) (node : Inode) (fs : Fs) : Kernel :=
  { k.setInode f.ip { node with busy := false } with fs := fs.committed }

section Round

variable {k : Kernel} {f : File} {src : List UInt8}

theorem Alone.live (alone : k.Alone f) : (k.loaded f.ip).din.type ≠ 0 := by
  rw [alone.file]
  decide

theorem Alone.ilock_eq (alone : k.Alone f) : ({ k with fs := k.fs.begun } : Kernel).ilock f.ip =
    .ok ({ k with fs := k.fs.begun }.setInode f.ip (k.held f)) := by
  have live := alone.live
  unfold held
  unfold loaded at live ⊢
  unfold ilock
  dsimp only
  rw [if_neg (by have := alone.used; omega), alone.unlocked, if_neg Bool.false_ne_true]
  by_cases valid : (k.icache f.ip).valid = true
  · rw [if_pos valid, if_pos valid, ← valid]
  · rw [if_neg valid] at live
    rw [if_neg valid, if_neg valid]
    exact if_neg live

theorem Alone.writeRound_eq (alone : k.Alone f) {r : Int} {node : Inode} {fs : Fs}
    {sectors : List Nat} (ran : k.fs.begun.writei (k.held f) src f.off.toNat = .ok (r, node, fs))
    (logs : k.fs.begun.Logs fs sectors) (inode : node = { k.held f with din := node.din }) :
    k.writeRound f src = .ok (r, if 0 < r then { f with off := f.off + UInt32.ofInt r } else f,
      k.closed f node fs) := by
  have slot : (if 0 < r then { f with off := f.off + UInt32.ofInt r } else f : File).ip = f.ip := by
    split <;> rfl
  have ref : 0 < node.ref := by
    rw [inode]
    show 0 < (k.loaded f.ip).ref
    unfold loaded
    split <;> exact alone.used
  have busy : node.busy = true := by rw [inode]; rfl
  unfold writeRound Kernel.beginOp
  rw [alone.quiet.beginOp_eq]
  simp only [ok_bind, alone.ilock_eq]
  simp only [Kernel.writei, icache_setInode_self, fs_setInode, ran, Halt.lift, ok_bind,
    pure_bind, slot, iunlock]
  rw [if_neg (by rw [busy]; simp; omega), ok_bind, Kernel.endOp]
  simp only [fs_setInode, alone.quiet.endOp_eq logs, Halt.lift, ok_bind, pure_bind]
  unfold closed setInode
  simp only [Function.update_idem]
  rfl

theorem Alone.writeRound_error (alone : k.Alone f) {why : Panic}
    (ran : k.fs.begun.writei (k.held f) src f.off.toNat = .error why) :
    k.writeRound f src = .error (.panic why) := by
  unfold writeRound Kernel.beginOp
  rw [alone.quiet.beginOp_eq]
  simp only [ok_bind, alone.ilock_eq, Kernel.writei, icache_setInode_self, fs_setInode,
    ran, Halt.lift, error_bind]

/-- **What the bytes `src` written to the file have changed.** -/
structure Chunked (k k' : Kernel) (f f' : File) (src : List UInt8) : Prop where
  alone : k'.Alone f'
  fields : f' = { f with off := f'.off }
  off : f'.off.toNat = f.off.toNat + src.length
  inum : (k'.loaded f.ip).inum = (k.loaded f.ip).inum
  size :
    (k'.loaded f.ip).din.size.toNat = max (k.loaded f.ip).din.size.toNat (f.off.toNat + src.length)
  contents : k'.fs.view.contents (k.loaded f.ip).inum =
    splice (k.fs.view.contents (k.loaded f.ip).inum) f.off.toNat src
  sb : k'.fs.view.sb = k.fs.view.sb
  capacity : k'.fs.log.capacity = k.fs.log.capacity
  free : k'.fs.view.free = k.fs.view.free.drop
    (growth (Fs.blocks (k.loaded f.ip)) (Fs.blocksAfter (k.loaded f.ip) f.off.toNat src.length))

/-- The blocks by which the file grows to `c` lie before the log. -/
def Low (k : Kernel) (f : File) (c : Nat) : Prop :=
  ∀ b ∈ k.fs.view.free.take (growth (Fs.blocks (k.loaded f.ip)) c), b < k.fs.view.sb.logStart

/-- There are too few free blocks for the file to grow to `c`, or the log has no room for a
chunk. -/
def Lacks (k : Kernel) (f : File) (c : Nat) : Prop :=
  k.fs.view.free.length < growth (Fs.blocks (k.loaded f.ip)) c ∨
    k.fs.log.capacity ≤ k.fs.bitmapBlocks + 17

theorem loaded_closed {node : Inode} {fs : Fs} (valid : node.valid = true) :
    (k.closed f node fs).loaded f.ip = { node with busy := false } := by
  have entry : (k.closed f node fs).icache f.ip = { node with busy := false } :=
    icache_setInode_self ..
  unfold loaded
  rw [entry]
  exact if_pos valid

theorem Alone.closed (alone : k.Alone f) {node : Inode} {fs : Fs} {off : UInt32}
    (apart : fs.committed.Apart) (agrees : fs.view.Agrees fs.committed.view)
    (inside : fs.view.Inside) (locked : fs.Locked node)
    (inode : node = { k.held f with din := node.din }) (file : node.din.type = T_FILE) :
    (k.closed f node fs).Alone { f with off } := by
  have entry : (k.closed f node fs).icache f.ip = { node with busy := false } :=
    icache_setInode_self ..
  have loaded : (k.closed f node fs).loaded f.ip = { node with busy := false } :=
    loaded_closed (by rw [inode]; rfl)
  have ref : node.ref = (k.icache f.ip).ref := by
    rw [inode]
    show (k.loaded f.ip).ref = _
    unfold Kernel.loaded
    split <;> rfl
  have sb : fs.committed.readsb = fs.readsb := agrees.sb
  refine ⟨Fs.quiet_committed fs, apart, ?_, ?_, ?_, ?_⟩
  · show 0 < ((k.closed f node fs).icache f.ip).ref
    rw [entry, ref]
    exact alone.used
  · show ((k.closed f node fs).icache f.ip).busy = false
    rw [entry]
  · show fs.committed.Locked ((k.closed f node fs).loaded f.ip)
    rw [loaded]
    refine ⟨?_, agrees.wellFormed inside locked.wellFormed, ?_, locked.live⟩
    · rw [sb]
      exact locked.inside
    · rw [agrees.din]
      exact locked.synced
  · show ((k.closed f node fs).loaded f.ip).din.type = T_FILE
    rw [loaded]
    exact file

/-- One chunk that runs alone is a `writei` and its commit. -/
theorem Alone.writeRound_meets (src : List UInt8) (alone : k.Alone f)
    (fits : Fs.Fits (k.loaded f.ip) f.off.toNat src.length)
    (low : k.Low f (Fs.blocksAfter (k.loaded f.ip) f.off.toNat src.length)) (some' : src ≠ [])
    (small : src.length ≤ maxWrite) :
    Meets (k.writeRound f src) (fun (r, f', k') => r = src.length ∧ Chunked k k' f f' src)
      fun _ => k.Lacks f (Fs.blocksAfter (k.loaded f.ip) f.off.toNat src.length) := by
  have locked : k.fs.begun.Locked (k.held f) := alone.locked.of_view (Fs.view_begun _) rfl rfl
  have spec := locked.writei_meets fits.1 fits.2.1 fits.2.2
  cases ran : k.fs.begun.writei (k.held f) src f.off.toNat with
  | error why =>
    rw [alone.writeRound_error ran]
    rcases spec.of_error ran with ⟨-, few⟩ | ⟨-, full⟩
    · exact .inl few
    · refine .inr (not_lt.mp fun room => full (alone.quiet.room ?_))
      exact (Fs.card_writeSectors_chunk _ _ fits.2.1 small).trans_lt room
  | ok result =>
    obtain ⟨r, node, fs⟩ := result
    obtain ⟨rfl, taken, sectors, written⟩ := spec.of_ok ran
    rw [alone.writeRound_eq ran written.logs written.inode,
      if_pos (Int.natCast_pos.mpr (List.length_pos_iff.mpr some'))]
    have moves := written.moves locked fits.2.1 fits.2.2
    have apart := (alone.apart.beginOp alone.quiet.beginOp_eq).1.moves moves low
    obtain ⟨after, agrees⟩ := apart.endOp (alone.quiet.endOp_eq written.logs)
    have loaded : (k.closed f node fs).loaded f.ip = { node with busy := false } :=
      loaded_closed (by rw [written.inode]; rfl)
    have type : node.din.type = T_FILE := by
      rw [← written.locked.synced, written.number, written.effect.fields]
      exact (congrArg Dinode.type locked.synced).trans alone.file
    have count := written.count locked
    refine ⟨rfl, alone.closed after agrees apart.inside written.locked written.inode type,
      rfl, ?_, ?_, ?_, ?_, agrees.sb.trans written.effect.sb, written.logs.capacity, ?_⟩
    · exact toNat_advance (fits.2.2.trans_lt (by decide))
    · rw [loaded]
      exact written.number
    · rw [loaded]
      have size := written.size locked
      exact size
    · exact (agrees.contents apart.inside written.locked.wellFormed written.live).trans
        written.effect.contents
    · rw [show (k.closed f node fs).fs.view.free = _ from agrees.free]
      rw [show k.fs.view.free = _ from written.effect.free]
      exact (List.drop_left' count).symm

/-- A chunk past the maximum size changes nothing. -/
theorem Alone.writeRound_rejected (src : List UInt8) (alone : k.Alone f)
    (word : src.length < 2 ^ 32) (inside : f.off.toNat ≤ (k.loaded f.ip).din.size.toNat)
    (beyond : MAXFILE * BSIZE < f.off.toNat + src.length) :
    ∃ k', k.writeRound f src = .ok (-1, f, k') ∧ Chunked k k' f f [] := by
  have locked : k.fs.begun.Locked (k.held f) := alone.locked.of_view (Fs.view_begun _) rfl rfl
  have ran : k.fs.begun.writei (k.held f) src f.off.toNat = .ok (-1, k.held f, k.fs.begun) := by
    refine Fs.writei_outside (alone.file.trans_ne (by decide)) ?_
    have short := f.off.toNat_lt
    rw [MAXFILE_eq, BSIZE_eq] at *
    omega
  have begun := (alone.apart.beginOp alone.quiet.beginOp_eq).1
  obtain ⟨after, agrees⟩ := begun.endOp (alone.quiet.endOp_eq (.refl _))
  have loaded : (k.closed f (k.held f) k.fs.begun).loaded f.ip = { k.held f with busy := false } :=
    loaded_closed rfl
  refine ⟨_, alone.writeRound_eq ran (.refl _) rfl,
    alone.closed after agrees begun.inside locked rfl alone.file, rfl,
    rfl, by rw [loaded]; rfl, by rw [loaded]; exact (max_eq_left inside).symm, ?_, agrees.sb,
    rfl, ?_⟩
  · rw [splice_nil]
    refine agrees.contents begun.inside locked.wellFormed ?_
    unfold View.Live
    rw [show k.fs.begun.view.din (k.loaded f.ip).inum = _ from locked.synced]
    exact locked.live
  · rw [List.length_nil, show Fs.blocksAfter (k.loaded f.ip) f.off.toNat 0 =
      Fs.blocks (k.loaded f.ip) from
      max_eq_left (blocksOf_mono inside), growth_self, List.drop_zero]
    exact agrees.free

end Round

/-! ### All chunks -/

section Loop

variable {k k₁ k' : Kernel} {f f₁ f' : File} {src src' : List UInt8}

theorem Chunked.refl (alone : k.Alone f) (inside : f.off.toNat ≤ (k.loaded f.ip).din.size.toNat) :
    Chunked k k f f [] where
  alone := alone
  fields := rfl
  off := rfl
  inum := rfl
  size := (max_eq_left inside).symm
  contents := (splice_nil _ _).symm
  sb := rfl
  capacity := rfl
  free := by
    rw [show Fs.blocksAfter (k.loaded f.ip) f.off.toNat ([] : List UInt8).length =
      Fs.blocks (k.loaded f.ip) from
      max_eq_left (blocksOf_mono inside), growth_self, List.drop_zero]

theorem Chunked.blocks (one : Chunked k k₁ f f₁ src) : Fs.blocks (k₁.loaded f.ip) =
    Fs.blocksAfter (k.loaded f.ip) f.off.toNat src.length := by
  unfold Fs.blocks Fs.blocksAfter
  rw [one.size, blocksOf_max]
  rfl

theorem Chunked.ip (one : Chunked k k₁ f f₁ src) : f₁.ip = f.ip := by rw [one.fields]

theorem Chunked.blocksAfter (one : Chunked k k₁ f f₁ src) (n : Nat) :
    Fs.blocksAfter (k₁.loaded f.ip) f₁.off.toNat n =
      Fs.blocksAfter (k.loaded f.ip) f.off.toNat (src.length + n) := by
  have larger : blocksOf (f.off.toNat + src.length) ≤ blocksOf (f.off.toNat + (src.length + n)) :=
    blocksOf_mono (by omega)
  unfold Fs.blocksAfter
  rw [one.blocks, one.off, Nat.add_assoc, Fs.blocksAfter, max_assoc, max_eq_right larger]

/-- Chunks side by side make one. -/
theorem Chunked.trans (one : Chunked k k₁ f f₁ src) (two : Chunked k₁ k' f₁ f' src')
    (inside : f.off.toNat ≤ (k.fs.view.contents (k.loaded f.ip).inum).length) :
    Chunked k k' f f' (src ++ src') where
  alone := two.alone
  fields := by rw [two.fields, one.fields]
  off := by rw [two.off, one.off, List.length_append, Nat.add_assoc]
  inum := by rw [← one.ip, two.inum, one.ip, one.inum]
  size := by
    have size := two.size
    rw [one.ip, one.size, one.off] at size
    rw [size, List.length_append]
    omega
  contents := by
    have contents := two.contents
    rw [one.ip, one.inum, one.contents, one.off, splice_splice_adjacent inside] at contents
    exact contents
  sb := two.sb.trans one.sb
  capacity := two.capacity.trans one.capacity
  free := by
    have free := two.free
    rw [one.ip, one.blocks, one.blocksAfter, one.free, List.drop_drop] at free
    rw [free, List.length_append]
    congr 1
    exact (growth_add (le_max_left _ _) (by
      unfold Fs.blocksAfter
      exact max_le_max le_rfl (blocksOf_mono (by omega)))).symm

/-- The blocks of the file behind as many of `n` bytes as it may have. -/
def reach (k : Kernel) (f : File) (n : Nat) : Nat :=
  Fs.blocksAfter (k.loaded f.ip) f.off.toNat (min n (MAXFILE * BSIZE - f.off.toNat))

theorem Chunked.left (one : Chunked k k₁ f f₁ src) {n : Nat} (more : src.length ≤ n)
    (bound : f.off.toNat + src.length ≤ MAXFILE * BSIZE) :
    (k.Low f (k.reach f n) → k₁.Low f₁ (k₁.reach f₁ (n - src.length))) ∧
      (k₁.Lacks f₁ (k₁.reach f₁ (n - src.length)) → k.Lacks f (k.reach f n)) := by
  have same : k₁.reach f₁ (n - src.length) = k.reach f n := by
    unfold reach
    rw [one.ip, one.blocksAfter, one.off]
    congr 1
    omega
  have grows : growth (Fs.blocks (k.loaded f.ip)) (k.reach f n) =
      growth (Fs.blocks (k.loaded f.ip)) (Fs.blocks (k₁.loaded f.ip)) +
        growth (Fs.blocks (k₁.loaded f.ip)) (k.reach f n) := by
    refine growth_add ?_ ?_
    · rw [one.blocks]
      exact le_max_left _ _
    · rw [one.blocks]
      exact max_le_max le_rfl (blocksOf_mono (by omega))
  rw [same]
  unfold Low Lacks Fs.bitmapBlocks
  rw [show k₁.fs.readsb = k.fs.readsb from one.sb, one.sb, one.capacity, one.ip, grows,
    one.free, one.blocks]
  refine ⟨fun low b member => low b ?_, fun lacks => lacks.imp_left fun few => ?_⟩
  · rw [List.take_add]
    exact List.mem_append_right _ member
  · rw [List.length_drop] at few
    omega

theorem Low.mono {c c' : Nat} (low : k.Low f c') (first : Fs.blocks (k.loaded f.ip) ≤ c)
    (le : c ≤ c') : k.Low f c := by
  unfold Low at low ⊢
  rw [growth_add first le, List.take_add] at low
  exact fun b member => low b (List.mem_append_left _ member)

theorem Lacks.mono {c c' : Nat} (lacks : k.Lacks f c) (first : Fs.blocks (k.loaded f.ip) ≤ c)
    (le : c ≤ c') : k.Lacks f c' := by
  refine lacks.imp_left fun few => ?_
  rw [growth_add first le]
  omega

/-- **The loop of `filewrite`**: the bytes up to `last` are written, all of them unless the file
would become too long. -/
theorem Alone.filewriteLoop_meets (addr : Nat → UInt8) {i n : Nat} (alone : k.Alone f)
    (upTo : i ≤ n) (inside : f.off.toNat ≤ (k.loaded f.ip).din.size.toNat)
    (low : k.Low f (k.reach f (n - i))) :
    Meets (k.filewriteLoop f addr i n) (fun (last, f', k', _) => ∃ src : List UInt8,
      Chunked k k' f f' src ∧ last = i + src.length ∧
        src = (List.range src.length).map (fun j => addr (i + j)) ∧
        (last = n ↔ f.off.toNat + (n - i) ≤ MAXFILE * BSIZE))
      fun _ => k.Lacks f (k.reach f (n - i)) := by
  induction left : n - i using Nat.strong_induction_on generalizing k f i with
  | _ left' ih =>
    have value : maxWrite = 6656 := rfl
    have small := alone.locked.small
    rw [Kernel.filewriteLoop]
    by_cases more : i < n
    swap
    · rw [if_neg more]
      exact ⟨[], .refl alone inside, rfl, rfl, by omega⟩
    rw [if_pos more]
    have length := length_chunk addr i n
    have chunked :
        (List.range (min (n - i) maxWrite)).map (fun j => addr (i + j)) = chunk addr i n := rfl
    dsimp only
    rw [chunked]
    by_cases bound : f.off.toNat + min (n - i) maxWrite ≤ MAXFILE * BSIZE
    · have upper :
          Fs.blocksAfter (k.loaded f.ip) f.off.toNat (chunk addr i n).length ≤ k.reach f (n - i) :=
        max_le_max le_rfl (blocksOf_mono (by rw [length]; omega))
      have turn := alone.writeRound_meets (chunk addr i n)
        ⟨alone.file.trans_ne (by decide), inside, by rw [length]; exact bound⟩
        (low.mono (le_max_left _ _) upper) (List.length_pos_iff.mp (by omega)) (by omega)
      refine (turn.mono (fun _ good => good) fun _ lacks =>
        left ▸ lacks.mono (le_max_left _ _) upper).bind ?_
      rintro ⟨r, f₁, k₁⟩ ⟨rfl, one⟩
      dsimp only
      rw [if_neg (by omega), if_neg (by rw [length]; simp)]
      have rest : n - (i + min (n - i) maxWrite) = n - i - (chunk addr i n).length := by omega
      obtain ⟨low', lacks'⟩ := one.left (n := n - i) (by omega) (by rw [length]; exact bound)
      rw [← rest] at low' lacks'
      have next := ih (n - (i + min (n - i) maxWrite)) (by omega) one.alone (by omega)
        (by rw [one.ip, one.size, one.off]; exact le_max_right _ _) (low' low) rfl
      refine (next.mono (fun _ good => good) fun _ lacks => left ▸ lacks' lacks).bind ?_
      rintro ⟨last, f', k', rounds⟩ ⟨src, two, at', bytes, whole⟩
      have within : f.off.toNat ≤ (k.fs.view.contents (k.loaded f.ip).inum).length := by
        rw [View.length_contents, alone.locked.synced]
        exact inside
      refine ⟨chunk addr i n ++ src, one.trans two within, ?_, ?_, ?_⟩
      · rw [at', List.length_append, length, Nat.add_assoc]
      · rw [List.length_append, List.range_add, List.map_append, List.map_map, length]
        refine congrArg₂ (· ++ ·) rfl (bytes.trans (List.map_congr_left fun j _ => ?_))
        rw [Function.comp_apply, Nat.add_assoc]
      · rw [whole, one.off, length]
        omega
    · obtain ⟨k', rejected, same⟩ := alone.writeRound_rejected (chunk addr i n) (by omega) inside
        (by rw [length]; omega)
      rw [rejected]
      exact ⟨[], same, rfl, rfl, by omega⟩

end Loop

/-! ### An image of `mkfs` -/

section Image

open Mkfs

variable {built img : Img}

/-- The image with its only file open, the inode not yet read. -/
def openFile (img : Img) : Kernel :=
  (boot img.boot).setInode rootSlot ⟨ROOTDEV, 2, 1, false, false, .zero⟩

theorem loaded_openFile (holds : Built (List.replicate 1 emptyFile) built)
    (finished : Finished built img) :
    ((openFile img).loaded atStart.ip).din = img.boot.view.din 2 := by
  refine (Fs.view_din_of_lt (s := img.boot) ?_).symm
  rw [show img.boot.view.sb = _ from finished.readsb holds]
  show 2 < Mkfs.sb.ninodes.toNat
  decide

theorem alone_openFile (holds : Built (List.replicate 1 emptyFile) built)
    (finished : Finished built img) : (openFile img).Alone atStart := by
  have sb : img.boot.view.sb = Mkfs.sb := finished.readsb holds
  have wellFormed : img.boot.view.WellFormed := finished.wellFormed holds (by decide)
  have din := loaded_openFile holds finished
  have type := (onlyFile_din holds finished).1
  refine ⟨quiet_boot img,
    ⟨⟨?_, List.nodup_nil, fun _ none' => (List.not_mem_nil none').elim⟩, ⟨?_, ?_⟩⟩,
    (show (0 : Int) < 1 by decide), rfl, ⟨?_, wellFormed, ?_, ?_⟩, din ▸ type⟩
  · rw [show (openFile img).fs.readsb = Mkfs.sb from sb]
    rfl
  · rw [show (openFile img).fs.view.sb = Mkfs.sb from sb]
    decide
  · intro place b owned
    have range := (wellFormed.owned.range owned).2
    have used : b ∉ img.boot.view.free := fun free => by
      have := wellFormed.owned.owns.used_of_own owned
      rw [(View.mem_free.mp free).2] at this
      cases this
    rw [free_one holds finished, List.mem_filter, List.mem_range] at used
    rw [show (openFile img).fs.view.sb = Mkfs.sb from sb]
    rw [sb] at range
    have size : (Mkfs.sb.size).toNat = 1024 := rfl
    have start : Mkfs.sb.logStart = 994 := rfl
    simp only [decide_eq_true_eq] at used
    omega
  · show 2 < img.boot.readsb.ninodes.toNat
    rw [show img.boot.readsb = Mkfs.sb from sb]
    decide
  · exact din.symm
  · rw [din, type]
    decide

theorem low_openFile (holds : Built (List.replicate 1 emptyFile) built)
    (finished : Finished built img) {c : Nat} (top : c ≤ MAXFILE) :
    growth (Fs.blocks ((openFile img).loaded atStart.ip)) c ≤
      ((openFile img).fs.view.free.filter (· < (openFile img).fs.view.sb.logStart)).length := by
  have none' : Fs.blocks ((openFile img).loaded atStart.ip) = 0 := by
    unfold Fs.blocks
    rw [loaded_openFile holds finished, (onlyFile_din holds finished).2.1]
    decide
  have few : growth 0 c ≤ 141 := by
    rw [MAXFILE_eq] at top
    unfold growth
    split <;> omega
  rw [none', show (openFile img).fs.view.free = _ from free_one holds finished,
    show (openFile img).fs.view.sb = Mkfs.sb from finished.readsb holds]
  exact few.trans (by decide +kernel)

theorem roomy_openFile (holds : Built (List.replicate 1 emptyFile) built)
    (finished : Finished built img) :
    (openFile img).fs.bitmapBlocks + 17 < (openFile img).fs.log.capacity := by
  unfold Fs.bitmapBlocks
  rw [show (openFile img).fs.readsb = Mkfs.sb from finished.readsb holds,
    show (openFile img).fs.log.capacity = 29 from capacity_boot img]
  decide

end Image

/-! ### One write -/

theorem filewrite_eq {pipewrite : Nat → (Nat → UInt8) → Int → Except Halt Int} {k k' : Kernel}
    {f f' : File} {addr : Nat → UInt8} {n last : Nat} {rounds : List (List Nat)}
    (writable : f.writable = true) (inode : f.type = .inode)
    (ran : k.filewriteLoop f addr 0 n = .ok (last, f', k', rounds)) :
    k.filewrite pipewrite f addr n =
      .ok (if (last : Int) = n then (n : Int) else -1, f', k', rounds) := by
  unfold filewrite
  rw [if_neg (by rw [writable]; decide), inode]
  dsimp only
  rw [Int.toNat_natCast, ran]
  rfl

/-- **Chunked writes equal one write.** A call that runs alone, with an offset inside the file, a
result that is not too long and enough free blocks before the log, returns `n`; it has spliced the
bytes into the content of the file, as one `writei` of all of them does. The log has room for a
chunk, as that of every image of `mkfs` has. -/
theorem filewrite_chunks (pipewrite : Nat → (Nat → UInt8) → Int → Except Halt Int)
    {k : Kernel} {f : File} (addr : Nat → UInt8) (n : Nat) (alone : k.Alone f)
    (writable : f.writable = true) (inode : f.type = .inode)
    (inside : f.off.toNat ≤ (k.loaded f.ip).din.size.toNat)
    (bound : f.off.toNat + n ≤ MAXFILE * BSIZE)
    (enough : growth (Fs.blocks (k.loaded f.ip)) (Fs.blocksAfter (k.loaded f.ip) f.off.toNat n) ≤
      (k.fs.view.free.filter (· < k.fs.view.sb.logStart)).length)
    (roomy : k.fs.bitmapBlocks + 17 < k.fs.log.capacity) :
    ∃ f' k' rounds, k.filewrite pipewrite f addr n = .ok ((n : Int), f', k', rounds) ∧
      f' = { f with off := f'.off } ∧ f'.off.toNat = f.off.toNat + n ∧
      (k'.loaded f.ip).inum = (k.loaded f.ip).inum ∧
      (k'.loaded f.ip).din.size.toNat = max (k.loaded f.ip).din.size.toNat (f.off.toNat + n) ∧
      k'.fs.view.contents (k.loaded f.ip).inum =
        splice (k.fs.view.contents (k.loaded f.ip).inum) f.off.toNat ((List.range n).map addr) ∧
      ∀ r node fs, k.fs.begun.writei (k.held f)
          ((List.range n).map addr) f.off.toNat = .ok (r, node, fs) →
        r = n ∧ fs.view.contents (k.loaded f.ip).inum = k'.fs.view.contents (k.loaded f.ip).inum ∧
          node.din.size = (k'.loaded f.ip).din.size := by
  have sorted : k.fs.view.free.Pairwise (· < ·) := List.pairwise_lt_range.filter _
  obtain ⟨some', low⟩ := take_lt_of_filter sorted enough
  have reached : k.reach f (n - 0) = Fs.blocksAfter (k.loaded f.ip) f.off.toNat n := by
    unfold reach
    rw [Nat.sub_zero, min_eq_left (by omega)]
  have loop := alone.filewriteLoop_meets addr (Nat.zero_le n) inside (reached ▸ low)
  rw [reached] at loop
  obtain ⟨⟨last, f', k', rounds⟩, ran, src, chunked, at', bytes, whole⟩ :=
    (loop.mono (fun _ good => good) fun _ lacks =>
      lacks.elim (fun few => absurd some' (not_le.mpr few)) fun full =>
      absurd roomy (not_lt.mpr full)).exists_ok
  obtain rfl : last = n := whole.mpr bound
  have length : src.length = last := by omega
  rw [length] at bytes
  simp only [Nat.zero_add] at bytes
  refine ⟨f', k', rounds, (filewrite_eq writable inode ran).trans (by rw [if_pos rfl]),
    chunked.fields, by rw [chunked.off, length], chunked.inum, by rw [chunked.size, length],
    by rw [chunked.contents]; exact congrArg _ bytes, fun r node fs one => ?_⟩
  have locked : k.fs.begun.Locked (k.held f) := alone.locked.of_view (Fs.view_begun _) rfl rfl
  have count : ((List.range last).map addr).length = last := by
    rw [List.length_map, List.length_range]
  have fits : f.off.toNat + ((List.range last).map addr).length ≤ MAXFILE * BSIZE := by rwa [count]
  obtain ⟨rfl, taken, sectors, written⟩ :=
    (locked.writei_meets (alone.file.trans_ne (by decide)) inside fits).of_ok one
  refine ⟨by rw [count], ?_, ?_⟩
  · rw [chunked.contents, bytes]
    exact written.effect.contents
  · refine UInt32.toNat_inj.mp ((written.size locked).trans ?_)
    rw [count, chunked.size, length]
    rfl

/-- Two chunks written to the empty file of an image. -/
theorem filewrite_chunks_two : ∃ img f' k' rounds,
    Mkfs.mkfs (List.replicate 1 Mkfs.emptyFile) = .ok img ∧ maxWrite < 7000 ∧
    (openFile img).filewrite (fun _ _ n => .ok n) atStart (fun _ => 7) (7000 : Nat) =
      .ok (7000, f', k', rounds) ∧ k'.fs.view.contents 2 = List.replicate 7000 7 := by
  obtain ⟨img, made, built, holds, finished⟩ := Mkfs.mkfs_empty (n := 1) (by decide)
  obtain ⟨type, size, empty⟩ := Mkfs.onlyFile_din holds finished
  obtain ⟨f', k', rounds, ran, -, -, -, -, contents, -⟩ := filewrite_chunks (fun _ _ n => .ok n)
    (fun _ => 7) 7000 (alone_openFile holds finished) rfl rfl (Nat.zero_le _) (by decide)
    (low_openFile holds finished (by
      unfold Fs.blocksAfter Fs.blocks
      rw [loaded_openFile holds finished, size]
      decide))
    (roomy_openFile holds finished)
  refine ⟨img, f', k', rounds, made, by decide, ran, ?_⟩
  rw [show k'.fs.view.contents 2 = _ from contents]
  show splice (img.boot.view.contents 2) 0 _ = _
  rw [empty, List.map_const', List.length_range]
  generalize List.replicate 7000 (7 : UInt8) = src
  simp [splice]

end Kernel

/-! ### A call that fails -/

namespace Fs

variable {s s' : Fs} {ip ip' : Inode}

/-- The inode is as it was but for the addresses of its blocks. -/
def Readdressed (ip ip' : Inode) : Prop := ∃ addrs, ip' = { ip with din := { ip.din with addrs } }

theorem Readdressed.refl (ip : Inode) : Readdressed ip ip := ⟨ip.din.addrs, rfl⟩

theorem Readdressed.setAddr (ip : Inode) (k b : Nat) : Readdressed ip (ip.setAddr k b) :=
  ⟨_, by rw [Inode.setAddr, Dinode.setAddr_eq]⟩

theorem bmap_readdressed {bn b : Nat} (ran : s.bmap ip bn = .ok (b, ip', s')) :
    Readdressed ip ip' := by
  have indirect : ∀ {x : Nat × Inode × Fs}, s.indirect ip = .ok x → Readdressed ip x.2.1 := by
    intro x found
    unfold Fs.indirect at found
    split at found
    · obtain ⟨⟨addr, m⟩, -, found⟩ := bind_eq_ok.mp found
      cases found
      exact .setAddr ip _ _
    · cases found
      exact .refl ip
  unfold bmap at ran
  split at ran
  · split at ran
    · obtain ⟨⟨addr, m⟩, -, ran⟩ := bind_eq_ok.mp ran
      cases ran
      exact .setAddr ip _ _
    · cases ran
      exact .refl ip
  · split at ran
    · obtain ⟨⟨bp, ip₁, m⟩, found, ran⟩ := bind_eq_ok.mp ran
      obtain ⟨⟨addr, m'⟩, -, ran⟩ := bind_eq_ok.mp ran
      cases ran
      exact indirect found
    · cases ran

theorem writeiLoop_readdressed {src : List UInt8} {off : Nat}
    (ran : s.writeiLoop ip src off = .ok (ip', s')) : Readdressed ip ip' := by
  induction left : src.length using Nat.strong_induction_on generalizing s ip src off with
  | _ left' ih =>
    rw [writeiLoop] at ran
    split at ran
    · cases ran
      exact .refl _
    · next some' =>
      obtain ⟨⟨ip₁, m⟩, first, ran⟩ := bind_eq_ok.mp ran
      obtain ⟨⟨b, ip₂, m₁⟩, mapped, first⟩ := bind_eq_ok.mp first
      obtain ⟨m₂, -, first⟩ := bind_eq_ok.mp first
      cases first
      obtain ⟨addrs, rfl⟩ := bmap_readdressed mapped
      have positive := List.length_pos_iff.mpr some'
      have inside : off % BSIZE < BSIZE := Nat.mod_lt _ (by decide)
      obtain ⟨addrs', rfl⟩ := ih _ (by rw [List.length_drop]; omega) ran rfl
      exact ⟨addrs', rfl⟩

/-- **What `writei` returns for a file** is told by the offset and the size in memory, whatever is
on the disk. -/
theorem writei_cases (ip : Inode) (src : List UInt8) {off : Nat} {r : Int}
    (file : ip.din.type ≠ T_DEV) (word : off < 2 ^ 32 ∧ src.length < 2 ^ 32)
    (ran : s.writei ip src off = .ok (r, ip', s')) :
    ¬ (off ≤ ip.din.size.toNat ∧ off + src.length ≤ MAXFILE * BSIZE) ∧ r = -1 ∧ ip' = ip ∧ s' = s ∨
      (off ≤ ip.din.size.toNat ∧ off + src.length ≤ MAXFILE * BSIZE) ∧ r = src.length ∧
        ip'.valid = ip.valid ∧ ip'.din.type = ip.din.type ∧
        ip'.din.size.toNat = max ip.din.size.toNat (off + src.length) := by
  by_cases bounds : off ≤ ip.din.size.toNat ∧ off + src.length ≤ MAXFILE * BSIZE
  · right
    have short : off + src.length < 2 ^ 32 := bounds.2.trans_lt (by decide)
    unfold writei at ran
    dsimp only at ran
    rw [if_neg file, Nat.mod_eq_of_lt short, if_neg (by omega), if_neg (by omega)] at ran
    obtain ⟨⟨ip₁, m⟩, looped, ran⟩ := bind_eq_ok.mp ran
    obtain ⟨addrs, rfl⟩ := writeiLoop_readdressed looped
    dsimp only at ran
    split at ran
    · obtain ⟨m', -, ran⟩ := bind_eq_ok.mp ran
      cases ran
      refine ⟨bounds, rfl, rfl, rfl, ?_⟩
      show (UInt32.ofNat (off + src.length)).toNat = _
      rw [UInt32.toNat_ofNat', Nat.mod_eq_of_lt short]
      omega
    · cases ran
      exact ⟨bounds, rfl, rfl, rfl, by dsimp only; omega⟩
  · left
    rw [writei_outside file (by rw [MAXFILE_eq, BSIZE_eq] at *; omega)] at ran
    cases ran
    exact ⟨bounds, rfl, rfl, rfl⟩

theorem Quiet.view_committed (quiet : s.Quiet) : s.begun.committed.view = s.view := by
  have same : (s.begun.log.commit (Bufs.boot s.begun.blk)).2 = Bufs.boot s.blk := by
    unfold Log.commit
    rw [show s.begun.log.lh = .empty from quiet.header, if_neg (by decide)]
    rfl
  unfold committed
  rw [same]
  rfl

end Fs

namespace Kernel

section Failed

variable {k k' : Kernel} {f f' : File} {addr : Nat → UInt8} {i n last : Nat}
    {rounds : List (List Nat)}

theorem filewriteLoop_off (file : (k.loaded f.ip).din.type ≠ T_DEV) (upTo : i ≤ n)
    (inside : f.off.toNat ≤ (k.loaded f.ip).din.size.toNat)
    (done : k.filewriteLoop f addr i n = .ok (last, f', k', rounds)) :
    i ≤ last ∧ f'.off.toNat = f.off.toNat + (last - i) ∧
      (last = n ↔ f.off.toNat + (n - i) ≤ MAXFILE * BSIZE ∨ i = n) ∧
      (f.off.toNat + min (n - i) maxWrite ≤ MAXFILE * BSIZE → i + min (n - i) maxWrite ≤ last) := by
  induction left : n - i using Nat.strong_induction_on generalizing k f i rounds with
  | _ left' ih =>
    have value : maxWrite = 6656 := rfl
    by_cases more : i < n
    swap
    · rw [filewriteLoop, if_neg more] at done
      cases done
      exact ⟨le_rfl, by omega, by omega, by omega⟩
    obtain ⟨r, m, f₁, rest, turn, -, next⟩ := filewriteLoop_eq_ok more done
    obtain ⟨s, s', node, -, written, -, entry, fields⟩ := writeRound_eq_ok turn
    have length := length_chunk addr i n
    rcases Fs.writei_cases (k.held f) (chunk addr i n) file ⟨f.off.toNat_lt, by omega⟩ written with
      ⟨rejected, rfl, -, -⟩ | ⟨bounds, rfl, valid, type, size⟩
    · rcases next with ⟨-, -, rfl, rfl, -⟩ | ⟨absurdity, -⟩
      · have same : f' = f := fields
        rw [same]
        have beyond : ¬ f.off.toNat + (chunk addr last n).length ≤ MAXFILE * BSIZE :=
          fun bound => rejected ⟨inside, bound⟩
        omega
      · omega
    · rcases next with ⟨absurdity, -⟩ | ⟨-, loop⟩
      · omega
      rw [if_pos (by omega)] at fields
      have ip : f₁.ip = f.ip := by rw [fields]
      have off : f₁.off.toNat = f.off.toNat + (chunk addr i n).length := by
        rw [fields]
        exact toNat_advance (bounds.2.trans_lt (by decide))
      have loaded' : m.loaded f₁.ip = { node with busy := false } := by
        unfold loaded
        rw [ip, entry]
        exact if_pos valid
      have result :=
        ih (n - (i + min (n - i) maxWrite)) (by omega) (by rw [loaded']; exact type ▸ file)
        (by omega) (by rw [loaded', off]; exact size ▸ le_max_right _ _) loop rfl
      omega

/-- **When a failing write has no effect.** A call of `filewrite` on a regular file, with no other
operation under way, that returns -1 has changed neither the content and the size of the file nor
the offset, unless the first chunk fits and the whole does not: then the chunks before the rejected
one stay written. -/
theorem filewrite_failed_iff {pipewrite : Nat → (Nat → UInt8) → Int → Except Halt Int} {r : Int}
    (quiet : k.fs.Quiet) (file : (k.loaded f.ip).din.type = T_FILE) (writable : f.writable = true)
    (inode : f.type = .inode) (done : k.filewrite pipewrite f addr n = .ok (r, f', k', rounds)) :
    (r = -1 → f'.off = f.off ∧ (k'.loaded f.ip).din.size = (k.loaded f.ip).din.size ∧
      k'.fs.view.contents (k.loaded f.ip).inum = k.fs.view.contents (k.loaded f.ip).inum) ↔
    (k.loaded f.ip).din.size.toNat < f.off.toNat ∨ f.off.toNat + n ≤ MAXFILE * BSIZE ∨
      MAXFILE * BSIZE < f.off.toNat + min n maxWrite := by
  have plain : (k.loaded f.ip).din.type ≠ T_DEV := file.trans_ne (by decide)
  have value : maxWrite = 6656 := rfl
  unfold filewrite at done
  rw [if_neg (by rw [writable]; decide), inode] at done
  obtain ⟨⟨last, f₁, k₁, rounds'⟩, loop, rest⟩ := bind_eq_ok.mp done
  cases rest
  rw [Int.toNat_natCast] at loop
  constructor
  · intro kept
    by_contra broken
    obtain ⟨inside, beyond, first⟩ : f.off.toNat ≤ (k.loaded f.ip).din.size.toNat ∧
        MAXFILE * BSIZE < f.off.toNat + n ∧
        f.off.toNat + min n maxWrite ≤ MAXFILE * BSIZE := by omega
    obtain ⟨-, off, whole, advanced⟩ := filewriteLoop_off plain (Nat.zero_le n) inside loop
    have same := (kept (if_neg (by omega))).1
    rw [same] at off
    omega
  · intro whole failed
    have short : last ≠ n := by
      rintro rfl
      rw [if_pos rfl] at failed
      omega
    have more : 0 < n := by
      refine Nat.pos_of_ne_zero ?_
      rintro rfl
      rw [filewriteLoop, if_neg (by omega)] at loop
      cases loop
      exact short rfl
    obtain ⟨r, m, f₂, rest, turn, -, next⟩ := filewriteLoop_eq_ok more loop
    obtain ⟨s, s', node, admitted, written, ended, entry, fields⟩ := writeRound_eq_ok turn
    have length := length_chunk addr 0 n
    rcases Fs.writei_cases (k.held f) (chunk addr 0 n) plain ⟨f.off.toNat_lt, by omega⟩ written with
      ⟨-, rfl, rfl, rfl⟩ | ⟨bounds, -⟩
    · rcases next with ⟨-, -, -, rfl, rfl⟩ | ⟨absurdity, -⟩
      · rw [quiet.beginOp_eq] at admitted
        cases admitted
        rw [quiet.endOp_eq (.refl _)] at ended
        have fs : k'.fs = k.fs.begun.committed := (Except.ok.inj ended).symm
        refine ⟨congrArg File.off fields, ?_, by rw [fs, quiet.view_committed]⟩
        unfold loaded
        rw [entry]
        rfl
      · omega
    · have inside : f.off.toNat ≤ (k.loaded f.ip).din.size.toNat := bounds.1
      obtain ⟨-, -, all, -⟩ := filewriteLoop_off plain (Nat.zero_le n) inside loop
      have fits : f.off.toNat + (chunk addr 0 n).length ≤ MAXFILE * BSIZE := bounds.2
      omega

set_option maxRecDepth 100000 in
/-- A write past the end of the file is rejected with its first chunk, and changes nothing. -/
theorem filewrite_failed_past_end : ∃ img f' k' rounds,
    Mkfs.mkfs (List.replicate 1 Mkfs.emptyFile) = .ok img ∧
    (openFile img).filewrite (fun _ _ n => .ok n) { atStart with off := 1 } (fun _ => 7)
      (7000 : Nat) = .ok (-1, f', k', rounds) ∧ f'.off = 1 ∧
    k'.fs.view.contents 2 = (openFile img).fs.view.contents 2 := by
  obtain ⟨img, made, ends⟩ := exists_of_endsIn
    (x := Mkfs.mkfs (List.replicate 1 Mkfs.emptyFile)) (P := fun img =>
      endsIn ((openFile img).filewrite (fun _ _ n => .ok n) { atStart with off := 1 } (fun _ => 7)
        (7000 : Nat)) fun x => decide (x.1 = -1)) (by decide +kernel)
  obtain ⟨⟨r, f', k', rounds⟩, ran, failed⟩ := exists_of_endsIn ends
  obtain rfl : r = -1 := of_decide_eq_true failed
  obtain ⟨built, holds, finished⟩ := (Mkfs.mkfs_meets (by decide)).of_ok made
  have size : ((openFile img).loaded atStart.ip).din.size.toNat = 0 := by
    rw [loaded_openFile holds finished]
    exact (Mkfs.onlyFile_din holds finished).2.1
  have alone := alone_openFile holds finished
  obtain ⟨off, -, contents⟩ := (filewrite_failed_iff (f := { atStart with off := 1 }) alone.quiet
    alone.file rfl rfl ran).mpr (.inl (size.trans_lt (by decide))) rfl
  exact ⟨img, f', k', rounds, made, ran, off, contents⟩

/-- **A failing write that leaves its first chunks behind**: one byte more than a file may have,
written to an empty file. -/
theorem filewrite_fails_behind :
    ∃ img f' k' rounds, Mkfs.mkfs (List.replicate 1 Mkfs.emptyFile) = .ok img ∧
    (openFile img).filewrite (fun _ _ n => .ok n) atStart (fun _ => 7) (71681 : Nat) =
      .ok (-1, f', k', rounds) ∧ f'.off ≠ atStart.off := by
  obtain ⟨img, made, built, holds, finished⟩ := Mkfs.mkfs_empty (n := 1) (by decide)
  have alone := alone_openFile holds finished
  have size : ((openFile img).loaded atStart.ip).din.size.toNat = 0 := by
    rw [loaded_openFile holds finished]
    exact (Mkfs.onlyFile_din holds finished).2.1
  have top : (openFile img).reach atStart (71681 - 0) ≤ MAXFILE := by
    unfold reach Fs.blocksAfter Fs.blocks
    rw [size, ← blocksOf_max]
    exact blocksOf_le.mpr (by rw [Nat.zero_max]; show 0 + min _ _ ≤ _; omega)
  obtain ⟨some', low⟩ :=
    take_lt_of_filter (List.pairwise_lt_range.filter _) (low_openFile holds finished top)
  have loop := alone.filewriteLoop_meets (fun _ => 7) (Nat.zero_le 71681) (Nat.zero_le _) low
  obtain ⟨⟨last, f', k', rounds⟩, ran, -⟩ := (loop.mono (fun _ good => good) fun _ lacks =>
    lacks.elim (fun few => absurd some' (not_le.mpr few)) fun full =>
      absurd (roomy_openFile holds finished) (not_lt.mpr full)).exists_ok
  obtain ⟨-, off, whole, advanced⟩ := filewriteLoop_off (alone.file.trans_ne (by decide))
    (Nat.zero_le 71681) (Nat.zero_le _) ran
  have start : atStart.off.toNat = 0 := rfl
  have value : maxWrite = 6656 := rfl
  rw [MAXFILE_eq, BSIZE_eq] at *
  refine ⟨img, f', k', rounds, made, ?_, fun same => ?_⟩
  · rw [filewrite_eq rfl rfl ran, if_neg (by omega)]
  · rw [same] at off
    omega

end Failed

end Kernel

end Xv6
