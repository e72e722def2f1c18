/-
**The log budget of `filewrite`.**

`begin_op` reserves `MAXOPBLOCKS` blocks for an operation, and `filewrite` sizes its chunks for a
transaction of `LOGSIZE` blocks. A call that needs a second chunk overruns its reservation already
with the first.
-/

import Xv6.Fs.Sectors
import Xv6.Kernel.File
import Xv6.Kernel.Ownership
import Xv6.Mkfs.Append

namespace Xv6

open Lib

namespace Fs

variable {s s' : Fs} {ip ip' : Inode}

theorem beginOp_eq_some (begun : s.beginOp = some s') : s'.view = s.view ∧ s'.wrote = s.wrote := by
  unfold beginOp at begun
  obtain ⟨log, _, rfl⟩ := Option.map_eq_some_iff.mp begun
  exact ⟨rfl, rfl⟩

theorem wrote_endOp (ended : s.endOp = .ok s') : s'.wrote = s.wrote := by
  unfold endOp at ended
  obtain ⟨⟨commits, log⟩, _, rest⟩ := bind_eq_ok.mp ended
  cases commits <;> cases rest <;> rfl

theorem writeCount_congr {off n : Nat} (view : s'.view = s.view) (din : ip'.din = ip.din) :
    s'.writeCount ip' off n = s.writeCount ip off n := by
  have sb : s'.readsb = s.readsb := congrArg View.sb view
  unfold writeCount bitmapSectors blocksAfter blocks
  rw [view, sb, din]

theorem Locked.of_view (locked : Locked s ip) (view : s'.view = s.view) (inum : ip'.inum = ip.inum)
    (din : ip'.din = ip.din) : Locked s' ip' := by
  have sb : s'.readsb = s.readsb := congrArg View.sb view
  refine ⟨?_, view ▸ locked.wellFormed, ?_, din ▸ locked.live⟩
  · rw [inum, sb]
    exact locked.inside
  · rw [view, inum, din, locked.synced]

/-- A full chunk spans at least 13 data blocks. -/
theorem card_spans_maxWrite (off : Nat) : 13 ≤ (spans off Kernel.maxWrite).card := by
  have value : Kernel.maxWrite = 6656 := rfl
  unfold spans
  rw [if_neg (by decide), Nat.card_Ico]
  unfold blocksOf
  rw [value, BSIZE_eq]
  omega

end Fs

namespace Kernel

section Round

variable {k k' : Kernel} {f f' : File} {src : List UInt8} {r : Int}

theorem writeRound_eq_ok (done : k.writeRound f src = .ok (r, f', k')) :
    ∃ (s s' : Fs) (node : Inode), k.fs.beginOp = some s ∧
      s.writei { k.loaded f.ip with busy := true, valid := true } src f.off.toNat =
      .ok (r, node, s') ∧ s'.endOp = .ok k'.fs ∧ k'.icache f.ip = { node with busy := false } ∧
      f' = if 0 < r then { f with off := f.off + UInt32.ofInt r } else f := by
  unfold writeRound at done
  obtain ⟨k₁, begun, done⟩ := bind_eq_ok.mp done
  obtain ⟨k₂, locked, done⟩ := bind_eq_ok.mp done
  obtain ⟨⟨r', k₃⟩, wrote, done⟩ := bind_eq_ok.mp done
  obtain ⟨k₄, unlocked, done⟩ := bind_eq_ok.mp done
  obtain ⟨k₅, ended, done⟩ := bind_eq_ok.mp done
  cases done
  have begins : ∃ s, k₁ = { k with fs := s } ∧ k.fs.beginOp = some s ∧ s.blk = k.fs.blk := by
    unfold Kernel.beginOp at begun
    cases first : k.fs.beginOp with
    | none =>
      rw [first] at begun
      cases begun
    | some s =>
      rw [first] at begun
      cases begun
      unfold Fs.beginOp at first
      obtain ⟨log, _, rfl⟩ := Option.map_eq_some_iff.mp first
      exact ⟨_, rfl, rfl, rfl⟩
  obtain ⟨s, rfl, admitted, blk⟩ := begins
  have same : ({ k with fs := s } : Kernel).loaded f.ip = k.loaded f.ip := by
    unfold loaded Fs.dinode
    simp only [blk]
  have locked' := ilock_eq_ok locked
  rw [same] at locked'
  subst locked'
  unfold Kernel.writei at wrote
  rw [icache_setInode_self] at wrote
  obtain ⟨⟨r₁, node, s'⟩, lifted, rest⟩ := bind_eq_ok.mp wrote
  cases rest
  have slot : (if 0 < r then { f with off := f.off + UInt32.ofInt r } else f : File).ip = f.ip := by
    split <;> rfl
  have unlocked' := iunlock_eq_ok unlocked
  rw [slot] at unlocked'
  subst unlocked'
  unfold Kernel.endOp at ended
  obtain ⟨s₅, committed, rest⟩ := bind_eq_ok.mp ended
  cases rest
  refine ⟨s, s', node, admitted, Halt.lift_eq_ok.mp lifted, Halt.lift_eq_ok.mp committed, ?_, rfl⟩
  simp only [icache_setInode_self]

/-- The sectors that a chunk hands to its transaction. -/
theorem card_writeRound (locked : k.fs.Locked (k.loaded f.ip))
    (fits : Fs.Fits (k.loaded f.ip) f.off.toNat src.length)
    (done : k.writeRound f src = .ok (r, f', k')) :
    (k'.fs.wrote.drop k.fs.wrote.length).toFinset.card =
      k.fs.writeCount (k.loaded f.ip) f.off.toNat src.length := by
  obtain ⟨s, s', node, admitted, written, ended, _, _⟩ := writeRound_eq_ok done
  obtain ⟨view, history⟩ := Fs.beginOp_eq_some admitted
  have locked' : s.Locked { k.loaded f.ip with busy := true, valid := true } :=
    locked.of_view view rfl rfl
  obtain ⟨_, taken, sectors, effect⟩ :=
    (locked'.writei_meets fits.1 fits.2.1 fits.2.2).of_ok written
  rw [Fs.wrote_endOp ended, effect.logs.wrote, history, List.drop_left,
    effect.card_sectors locked' fits.2.1 fits.2.2]
  exact Fs.writeCount_congr view rfl

theorem writeRound_rejected (file : (k.loaded f.ip).din.type ≠ T_DEV)
    (word : src.length < 2 ^ 32) (rejected : ¬ Fs.Fits (k.loaded f.ip) f.off.toNat src.length)
    (done : k.writeRound f src = .ok (r, f', k')) : r = -1 ∧ k'.fs.wrote = k.fs.wrote := by
  obtain ⟨s, s', node, admitted, written, ended, _, _⟩ := writeRound_eq_ok done
  have outside : ¬ (f.off.toNat ≤ (k.loaded f.ip).din.size.toNat ∧
      f.off.toNat + src.length ≤ MAXFILE * BSIZE) := fun bounds => rejected ⟨file, bounds⟩
  have short := f.off.toNat_lt
  have bounds : (k.loaded f.ip).din.size.toNat < f.off.toNat ∨
      (f.off.toNat + src.length) % 2 ^ 32 < f.off.toNat ∨
      (f.off.toNat + src.length) % 2 ^ 32 > MAXFILE * BSIZE := by
    rw [MAXFILE_eq, BSIZE_eq] at *
    omega
  have result := Fs.writei_outside (s := s)
    (show ({ k.loaded f.ip with busy := true, valid := true } : Inode).din.type ≠
      T_DEV from file) bounds
  rw [result] at written
  cases written
  exact ⟨rfl, (Fs.wrote_endOp ended).trans (Fs.beginOp_eq_some admitted).2⟩

theorem writeRound_device (device : (k.loaded f.ip).din.type = T_DEV)
    (done : k.writeRound f src = .ok (r, f', k')) :
    k'.fs.wrote = k.fs.wrote ∧ (k'.loaded f'.ip).din.type = T_DEV := by
  obtain ⟨s, s', node, admitted, written, ended, entry, fields⟩ := writeRound_eq_ok done
  have slot : f'.ip = f.ip := by
    rw [fields]
    split <;> rfl
  obtain ⟨r', result⟩ := Fs.writei_device (s := s)
    (show ({ k.loaded f.ip with busy := true, valid := true } : Inode).din.type =
      T_DEV from device) src
    f.off.toNat
  rw [result] at written
  cases written
  refine ⟨(Fs.wrote_endOp ended).trans (Fs.beginOp_eq_some admitted).2, ?_⟩
  unfold loaded
  rw [slot, if_pos (by rw [entry]), entry]
  exact device

end Round

section Loop

variable {k k' : Kernel} {f f' : File} {addr : Nat → UInt8} {i n last : Nat}
    {rounds : List (List Nat)}

/-- The bytes of the turn that starts at byte `i`. -/
def chunk (addr : Nat → UInt8) (i n : Nat) : List UInt8 :=
  (List.range (min (n - i) maxWrite)).map fun j => addr (i + j)

theorem length_chunk (addr : Nat → UInt8) (i n : Nat) :
    (chunk addr i n).length = min (n - i) maxWrite := by
  unfold chunk
  rw [List.length_map, List.length_range]

/-- **The first turn** of the loop is the last one, or the loop goes on behind its chunk. -/
theorem filewriteLoop_eq_ok (more : i < n)
    (done : k.filewriteLoop f addr i n = .ok (last, f', k', rounds)) :
    ∃ (r : Int) (m : Kernel) (f₁ : File) (rest : List (List Nat)),
      k.writeRound f (chunk addr i n) = .ok (r, f₁, m) ∧
      rounds = m.fs.wrote.drop k.fs.wrote.length :: rest ∧
      (r < 0 ∧ rest = [] ∧ last = i ∧ f' = f₁ ∧ k' = m ∨ r = (min (n - i) maxWrite : Nat) ∧
        m.filewriteLoop f₁ addr (i + min (n - i) maxWrite) n = .ok (last, f', k', rest)) := by
  rw [filewriteLoop, if_pos more] at done
  obtain ⟨⟨r, f₁, m⟩, turn, done⟩ := bind_eq_ok.mp done
  simp only at done
  split at done
  · next negative =>
    cases done
    exact ⟨r, k', f', [], turn, rfl, .inl ⟨negative, rfl, rfl, rfl, rfl⟩⟩
  · next positive =>
    split at done
    · cases done
    · next all =>
      obtain ⟨⟨last', f₂, k₂, rest⟩, loop, done⟩ := bind_eq_ok.mp done
      cases done
      exact ⟨r, m, f₁, rest, turn, rfl, .inr ⟨not_not.mp all, loop⟩⟩

theorem filewriteLoop_end (none' : n ≤ i)
    (done : k.filewriteLoop f addr i n = .ok (last, f', k', rounds)) : rounds = [] := by
  rw [filewriteLoop, if_neg (not_lt.mpr none')] at done
  cases done
  rfl

theorem filewriteLoop_device (device : (k.loaded f.ip).din.type = T_DEV)
    (done : k.filewriteLoop f addr i n = .ok (last, f', k', rounds)) :
    ∀ sectors ∈ rounds, sectors = [] := by
  induction left : n - i using Nat.strong_induction_on generalizing k f i rounds with
  | _ left' ih =>
    by_cases more : i < n
    · obtain ⟨r, m, f₁, rest, turn, rfl, next⟩ := filewriteLoop_eq_ok more done
      obtain ⟨same, device'⟩ := writeRound_device device turn
      have first : m.fs.wrote.drop k.fs.wrote.length = [] := by
        rw [same]
        exact List.drop_length
      intro sectors member
      rcases List.mem_cons.mp member with rfl | later
      · exact first
      · rcases next with ⟨_, rfl, _⟩ | ⟨_, loop⟩
        · cases later
        · have smaller : n - (i + min (n - i) maxWrite) < left' := by
            have : maxWrite = 6656 := rfl
            omega
          exact ih _ smaller device' loop rfl sectors later
    · rw [filewriteLoop_end (not_lt.mp more) done]
      intro sectors absurdity
      cases absurdity

end Loop

/-- **The log budget of `filewrite`.** All transactions of a completed call keep to `MAXOPBLOCKS`
distinct sectors exactly when its first chunk, if the call writes to a file and is not rejected,
needs no more: the data blocks it spans, the bitmap blocks of the blocks it takes, the indirect
block if it gets entries, and the inode's block if the file grows. -/
theorem filewrite_budget_iff {pipewrite : Nat → (Nat → UInt8) → Int → Except Halt Int}
    {k k' : Kernel} {f f' : File} {addr : Nat → UInt8} {n r : Int} {rounds : List (List Nat)}
    (locked : f.type = .inode → k.fs.Locked (k.loaded f.ip))
    (done : k.filewrite pipewrite f addr n = .ok (r, f', k', rounds)) :
    (∀ sectors ∈ rounds, sectors.toFinset.card ≤ MAXOPBLOCKS) ↔
      (f.writable = true → f.type = .inode → 0 < n →
        Fs.Fits (k.loaded f.ip) f.off.toNat (min n.toNat maxWrite) →
        k.fs.writeCount (k.loaded f.ip) f.off.toNat (min n.toNat maxWrite) ≤ MAXOPBLOCKS) := by
  unfold filewrite at done
  split at done
  · next readonly =>
    cases done
    refine iff_of_true (fun _ absurdity => by cases absurdity) fun writable => ?_
    rw [readonly] at writable
    cases writable
  next writable =>
  have writable' : f.writable = true := by simpa using writable
  split at done
  · next pipe =>
    obtain ⟨r', _, rest⟩ := bind_eq_ok.mp done
    cases rest
    refine iff_of_true (fun _ absurdity => by cases absurdity) fun _ inode => ?_
    rw [pipe] at inode
    cases inode
  · next inode =>
    obtain ⟨⟨last, f₁, k₁, rounds'⟩, loop, rest⟩ := bind_eq_ok.mp done
    cases rest
    rw [imp_iff_right writable', imp_iff_right inode]
    by_cases positive : 0 < n
    swap
    · rw [filewriteLoop_end (by omega) loop]
      exact iff_of_true (fun _ absurdity => by cases absurdity) fun absurdity =>
        absurd absurdity positive
    rw [imp_iff_right positive]
    obtain ⟨r₁, m, f₂, others, turn, rfl, next⟩ :=
      filewriteLoop_eq_ok (show 0 < n.toNat by omega) loop
    have length := length_chunk addr 0 n.toNat
    rw [Nat.sub_zero] at length
    have value : maxWrite = 6656 := rfl
    by_cases fits : Fs.Fits (k.loaded f.ip) f.off.toNat (min n.toNat maxWrite)
    · rw [imp_iff_right fits]
      have count := card_writeRound (locked inode) (length ▸ fits) turn
      rw [length] at count
      rw [List.forall_mem_cons, count]
      refine and_iff_left_of_imp fun small sectors member => ?_
      -- A first chunk inside the budget is the only one.
      have only : n.toNat ≤ maxWrite := by
        by_contra large
        have thirteen := Fs.card_spans_maxWrite f.off.toNat
        rw [Nat.min_eq_right (by omega)] at small
        have budget : MAXOPBLOCKS = 10 := rfl
        unfold Fs.writeCount at small
        omega
      rcases next with ⟨_, rfl, _⟩ | ⟨_, loop'⟩
      · cases member
      · rw [filewriteLoop_end (by omega) loop'] at member
        cases member
    · refine iff_of_true ?_ fun absurdity => absurd absurdity fits
      by_cases device : (k.loaded f.ip).din.type = T_DEV
      · intro sectors member
        rw [filewriteLoop_device device loop sectors member]
        decide
      · obtain ⟨rfl, same⟩ :=
          writeRound_rejected device (by rw [length]; omega) (length ▸ fits) turn
        rcases next with ⟨_, rfl, _⟩ | ⟨absurdity, _⟩
        · intro sectors member
          rw [List.mem_singleton.mp member, same, List.drop_length]
          decide
        · exact absurd absurdity (by omega)
  · cases done

/-- An open file of the full disk, its inode not yet read. -/
def openFull : Kernel := full.setInode rootSlot ⟨ROOTDEV, 2, 1, false, false, .zero⟩

/-- A file open for writing at its start. -/
def atStart : File := ⟨.inode, 1, true, true, 0, rootSlot, 0⟩

theorem locked_openFull : openFull.fs.Locked (openFull.loaded atStart.ip) := by
  have inside : 2 < full.fs.readsb.ninodes.toNat := by
    rw [show full.fs.readsb = _ from full_sb]
    decide
  have din : full.fs.view.din 2 = full.fs.dinode 2 := Fs.view_din_of_lt inside
  refine ⟨inside, full_wellFormed, din, ?_⟩
  show (full.fs.dinode 2).type ≠ 0
  rw [← din]
  exact (full_dins.1 2 (by decide)).mpr (.inr rfl)

set_option maxRecDepth 100000 in
/-- A byte written to the file of the full disk stays inside the budget. -/
theorem filewrite_budget_one_byte : ∃ r f k rounds,
    openFull.filewrite (fun _ _ n => .ok n) atStart (fun _ => 7) 1 = .ok (r, f, k, rounds) ∧
      rounds ≠ [] ∧ ∀ sectors ∈ rounds, sectors.toFinset.card ≤ MAXOPBLOCKS := by
  have check : endsIn (openFull.filewrite (fun _ _ n => .ok n) atStart (fun _ => 7) 1)
      (fun (_, _, _, rounds) => !rounds.isEmpty &&
        decide (openFull.fs.writeCount (openFull.loaded atStart.ip) 0 1 ≤ MAXOPBLOCKS)) = true := by
    decide +kernel
  obtain ⟨⟨r, f, k, rounds⟩, done, ends⟩ := exists_of_endsIn check
  obtain ⟨some', count⟩ := (Bool.and_eq_true _ _).mp ends
  refine ⟨r, f, k, rounds, done, fun none' => ?_,
    (filewrite_budget_iff (fun _ => locked_openFull) done).mpr fun _ _ _ _ =>
    of_decide_eq_true count⟩
  rw [none'] at some'
  cases some'

/-- What `filewrite` of `n` zero bytes to the empty file of an image of `mkfs` returns, with the
number of distinct sectors of each of its transactions. -/
def sectorCounts (n : Nat) : Option (Int × List Nat) :=
  match Mkfs.mkfs [Mkfs.emptyFile] with
  | .error _ => none
  | .ok img =>
    match ((boot img.boot).setInode rootSlot ⟨ROOTDEV, 2, 1, false, false, .zero⟩).filewrite
        (fun _ _ n => .ok n) atStart (fun _ => 0) n with
    | .error _ => none
    | .ok (r, _, _, rounds) => some (r, rounds.map fun sectors => sectors.dedup.length)

set_option maxRecDepth 100000 in
/-- **One chunk overruns the budget**: thirteen blocks written to an empty file log sixteen sectors
in one transaction. -/
theorem filewrite_chunk_overruns : sectorCounts maxWrite = some (6656, [16]) ∧
    MAXOPBLOCKS < 16 := by
  decide +kernel

end Kernel

end Xv6
